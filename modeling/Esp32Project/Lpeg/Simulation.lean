import Esp32Project.Lpeg.Linking

/-!
The generated code does what the pattern means. A pattern whose follow set was
used may instead fail early, before a character that nothing after it accepts;
as the last part of an option it may instead end at the choice of that option.
-/

set_option autoImplicit false

namespace Esp32Project.Lpeg
open Esp32Project.Lib

/-- The entries of the stack remember no more captures than there are. -/
def Fits (stack : List Frame) (n : Nat) : Prop :=
  ∀ p s caplevel, Frame.choice p s caplevel ∈ stack → caplevel ≤ n

/-- The test that protects a place has succeeded there. -/
def Protects (subject : List UInt8) (i : Nat) : Option Instruction → Prop
  | some (.iTestChar aux _) => subject[i]? = some aux
  | some (.iTestSet buff _) => ∃ c, subject[i]? = some c ∧ testchar buff c = true
  | _ => True

/-- Where code comes that starts in a state, for a pattern with a given meaning. -/
def Arrives (code : List Instruction) (subject : List UInt8) (start : State) (opt : Bool)
    (fl : Charset) (stack : List Frame) (capture : List Capture) (next : Nat) :
    Option Match → Prop
  | none => Meets (turn code subject) start (.fail stack capture)
  | some (j, caps) =>
    Meets (turn code subject) start (.run next j stack (capture ++ caps)) ∨
      (∃ c, subject[j]? = some c ∧ testchar fl c = false ∧
        Meets (turn code subject) start (.fail stack capture)) ∨
      (opt = true ∧ ∃ q s caplevel rest, stack = .choice q s caplevel :: rest ∧
        (Meets (turn code subject) start (.run q j rest (capture ++ caps)) ∨
          ∃ s' caplevel', Meets (turn code subject) start
            (.run next j (.choice q s' caplevel' :: rest) (capture ++ caps))))

section

variable {code : List Instruction} {subject : List UInt8} {stack : List Frame}
  {capture caps : List Capture} {p s : Nat} {start start' : State} {opt : Bool} {fl : Charset}
  {next : Nat} {r : Option Match}

theorem Fits.mono {n n' : Nat} (h : Fits stack n) (hle : n ≤ n') : Fits stack n' :=
  fun p s caplevel hmem => Nat.le_trans (h p s caplevel hmem) hle

theorem Fits.append (h : Fits stack capture.length) (caps : List Capture) :
    Fits stack (capture ++ caps).length :=
  h.mono (by rw [List.length_append]; exact Nat.le_add_right _ _)

theorem Fits.choice (h : Fits stack capture.length) (p s : Nat) :
    Fits (.choice p s capture.length :: stack) capture.length := fun q s' caplevel hmem => by
  obtain heq | hmem := List.mem_cons.mp hmem
  · cases heq
    exact Nat.le_refl _
  · exact h q s' caplevel hmem

theorem Fits.call (h : Fits stack capture.length) (p : Nat) :
    Fits (.call p :: stack) capture.length := fun q s' caplevel hmem => by
  obtain heq | hmem := List.mem_cons.mp hmem
  · cases heq
  · exact h q s' caplevel hmem

theorem fail_nil : turn code subject (.fail [] capture) = some (.done none) := rfl

theorem fail_call : turn code subject (.fail (.call p :: stack) capture) =
    some (.fail stack capture) := rfl

theorem fail_choice {caplevel : Nat} :
    turn code subject (.fail (.choice p s caplevel :: stack) capture) =
      some (.run p s stack (capture.take caplevel)) := rfl

theorem fail_captures (h : Fits stack capture.length) :
    Meets (turn code subject) (.fail stack (capture ++ caps)) (.fail stack capture) := by
  induction stack with
  | nil => exact (Meets.of_step fail_nil).trans (Meets.of_step fail_nil).symm
  | cons frame stack ih =>
    cases frame with
    | call q =>
      have hrest := ih fun p s caplevel hmem => h p s caplevel (List.mem_cons_of_mem _ hmem)
      exact (hrest.head fail_call).trans (Meets.of_step fail_call).symm
    | choice q s caplevel =>
      have hle := h q s caplevel List.mem_cons_self
      refine (Meets.of_step fail_choice).trans (Meets.symm (Meets.of_step ?_))
      rw [fail_choice, List.take_append_of_le_length hle]

theorem Arrives.head (h : Arrives code subject start opt fl stack capture next r)
    (hstart : Meets (turn code subject) start' start) :
    Arrives code subject start' opt fl stack capture next r := by
  cases r with
  | none => exact hstart.trans h
  | some m =>
    obtain hrun | ⟨c, hc, hout, hfail⟩ | ⟨hopt, q, s, caplevel, rest, hstack, hrun⟩ := h
    · exact .inl (hstart.trans hrun)
    · exact .inr (.inl ⟨c, hc, hout, hstart.trans hfail⟩)
    · refine .inr (.inr ⟨hopt, q, s, caplevel, rest, hstack, ?_⟩)
      obtain hrun | ⟨s', caplevel', hrun⟩ := hrun
      · exact .inl (hstart.trans hrun)
      · exact .inr ⟨s', caplevel', hstart.trans hrun⟩

theorem Arrives.captures (hfits : Fits stack capture.length)
    (h : Arrives code subject start opt fl stack (capture ++ caps) next r) :
    Arrives code subject start opt fl stack capture next
      (r.map fun m => (m.1, caps ++ m.2)) := by
  cases r with
  | none => exact Meets.trans h (fail_captures hfits)
  | some m =>
    obtain ⟨j, caps'⟩ := m
    simp only [Arrives, List.append_assoc] at h
    obtain hrun | ⟨c, hc, hout, hfail⟩ | ⟨hopt, q, s, caplevel, rest, hstack, hrun⟩ := h
    · exact .inl hrun
    · exact .inr (.inl ⟨c, hc, hout, hfail.trans (fail_captures hfits)⟩)
    · exact .inr (.inr ⟨hopt, q, s, caplevel, rest, hstack, hrun⟩)

theorem Arrives.run {j : Nat}
    (h : Arrives code subject start false fullset stack capture next (some (j, caps))) :
    Meets (turn code subject) start (.run next j stack (capture ++ caps)) := by
  obtain hrun | ⟨c, -, hout, -⟩ | ⟨hopt, -⟩ := h
  · exact hrun
  · rw [testchar_full] at hout
    cases hout
  · cases hopt

theorem matchChar_atChar {member : UInt8 → Bool} :
    matchChar subject s member = if atChar subject s member then some (s + 1, []) else none := by
  cases hc : subject[s]? with
  | none => simp [matchChar, atChar, hc]
  | some c => simp [matchChar, atChar, hc]

variable (subject s stack capture) in
theorem step_testset {cs : Charset} {offset : Int} (h : code[p]? = some (testset cs offset)) :
    turn code subject (.run p s stack capture) = some
      (.run (if atChar subject s (testchar cs) then p + 1 else target p offset) s stack
        capture) := by
  have htype := charsettype_eq cs
  rw [testset] at h
  cases hcase : charsettype cs with
  | fail =>
    simp only [hcase] at htype h
    have hchar : atChar subject s (testchar cs) = false := by
      rw [atChar]
      split
      · exact htype _
      · rfl
    simp only [turn, h, hchar, Bool.false_eq_true, if_false]
  | any =>
    simp only [hcase] at htype h
    have hset : testchar cs = fun _ => true := funext htype
    simp only [turn, h, hset]
    split <;> rfl
  | char c =>
    simp only [hcase] at htype h
    have hset : testchar cs = fun d => decide (d = c) := funext htype
    simp only [turn, h, hset]
    split <;> rfl
  | set =>
    simp only [hcase] at h
    simp only [turn, h]
    split <;> rfl

theorem protects_testset {cs : Charset} (h : atChar subject s (testchar cs) = true) :
    Protects subject s (some (testset cs 0)) := by
  have htype := charsettype_eq cs
  have hget : ∃ c, subject[s]? = some c ∧ testchar cs c = true := by
    rw [atChar] at h
    split at h
    · rename_i c hc
      exact ⟨c, hc, h⟩
    · cases h
  rw [testset]
  cases hcase : charsettype cs with
  | fail | any => trivial
  | char c =>
    simp only [hcase] at htype
    obtain ⟨d, hd, hin⟩ := hget
    rw [htype, decide_eq_true_eq] at hin
    exact hin ▸ hd
  | set => exact hget

theorem step_codechar {c : UInt8} {tt : Option Instruction} (htt : Protects subject s tt)
    (h : code[p]? = some (codechar c tt)) :
    turn code subject (.run p s stack capture) =
      some (if atChar subject s (· = c) then .run (p + 1) (s + 1) stack capture
        else .fail stack capture) := by
  have plain (h : code[p]? = some (.iChar c)) : turn code subject (.run p s stack capture) =
      some (if atChar subject s (· = c) then .run (p + 1) (s + 1) stack capture
        else .fail stack capture) := by
    simp only [turn, h]
    split <;> rfl
  unfold codechar at h
  split at h
  · rename_i aux offset
    by_cases hsame : aux = c
    · subst hsame
      rw [if_pos rfl] at h
      have hchar : subject[s]? = some aux := htt
      simp [turn, h, atChar, hchar]
    · rw [if_neg hsame] at h
      exact plain h
  · exact plain h

theorem step_codecharset {cs : Charset} {tt : Option Instruction} (htt : Protects subject s tt)
    (h : code[p]? = some (codecharset cs tt)) :
    turn code subject (.run p s stack capture) =
      some (if atChar subject s (testchar cs) then .run (p + 1) (s + 1) stack capture
        else .fail stack capture) := by
  have plain (h : code[p]? = some (.iSet cs)) : turn code subject (.run p s stack capture) =
      some (if atChar subject s (testchar cs) then .run (p + 1) (s + 1) stack capture
        else .fail stack capture) := by
    simp only [turn, h]
    split <;> rfl
  have htype := charsettype_eq cs
  unfold codecharset at h
  cases hcase : charsettype cs with
  | fail =>
    simp only [hcase] at htype h
    have hchar : atChar subject s (testchar cs) = false := by
      rw [atChar]
      split
      · exact htype _
      · rfl
    simp only [turn, h, hchar, Bool.false_eq_true, if_false]
  | any =>
    simp only [hcase] at htype h
    have hset : testchar cs = fun _ => true := funext htype
    simp only [turn, h, hset]
    split <;> rfl
  | char c =>
    simp only [hcase] at htype h
    have hset : testchar cs = fun d => decide (d = c) := funext htype
    rw [hset]
    exact step_codechar htt h
  | set =>
    simp only [hcase] at h
    split at h
    · rename_i buff offset
      by_cases hsame : cs = buff
      · subst hsame
        rw [if_pos rfl] at h
        obtain ⟨c, hc, hin⟩ := htt
        simp [turn, h, atChar, hc, hin]
      · rw [if_neg hsame] at h
        exact plain h
    · exact plain h

end

/-- The rules of a grammar stand in the code, each with a return. -/
structure Env (code : List Instruction) (rules : List Tree) (positions : List Nat) : Prop where
  formed : AllFormed rules
  size : rules.length ≤ 256
  placed : ∀ (n : Nat) (p : Tree), rules[n]? = some p → ∃ r fuel part, positions[n]? = some r ∧
    codegen fuel rules p false none fullset = some part ∧ Placed code positions r (part ++ [.iRet])

/-- Wherever the code of a pattern stands, it arrives where the meaning says. -/
def Sim (code : List Instruction) (subject : List UInt8) (rules : List Tree) (t : Tree) (i : Nat)
    (r : Option Match) : Prop :=
  ∀ (positions : List Nat) (fuel : Nat) (opt : Bool) (tt : Option Instruction) (fl : Charset)
    (part : List Instruction) (p : Nat) (stack : List Frame) (capture : List Capture),
    Env code rules positions → codegen fuel rules t opt tt fl = some part →
      Placed code positions p part → Protects subject i tt → Fits stack capture.length →
        (opt = true → fl = fullset ∧ ∃ q s caplevel rest, stack = .choice q s caplevel :: rest) →
          Arrives code subject (.run p i stack capture) opt fl stack capture (p + part.length) r

section

variable {code part : List Instruction} {subject : List UInt8} {rules : List Tree} {t x y : Tree}
  {i j k : Nat} {r : Option Match} {caps caps' : List Capture} {fuel : Nat} {opt : Bool}
  {tt : Option Instruction} {fl : Charset}

theorem codegen_pos (h : codegen fuel rules t opt tt fl = some part) :
    ∃ fuel', fuel = fuel' + 1 := by
  cases fuel with
  | zero => cases h
  | succ fuel => exact ⟨fuel, rfl⟩

theorem arrives_char {member : UInt8 → Bool} {p : Nat} {stack : List Frame}
    {capture : List Capture}
    (hstep : turn code subject (.run p i stack capture) =
      some (if atChar subject i member then .run (p + 1) (i + 1) stack capture
        else .fail stack capture)) :
    Arrives code subject (.run p i stack capture) opt fl stack capture (p + 1)
      (matchChar subject i member) := by
  rw [matchChar_atChar]
  by_cases hchar : atChar subject i member = true
  · rw [if_pos hchar] at hstep ⊢
    refine .inl (Meets.of_step ?_)
    rw [hstep, List.append_nil]
  · rw [if_neg hchar] at hstep ⊢
    exact Meets.of_step hstep

theorem codechar_ne {c : UInt8} {n : Nat} : codechar c tt ≠ .iOpenCall n := by
  unfold codechar
  split
  · split <;> exact fun h => nomatch h
  · exact fun h => nomatch h

theorem codecharset_ne {cs : Charset} {n : Nat} : codecharset cs tt ≠ .iOpenCall n := by
  unfold codecharset
  split
  · exact codechar_ne
  · split
    · split <;> exact fun h => nomatch h
    · exact fun h => nomatch h
  · exact fun h => nomatch h
  · exact fun h => nomatch h

theorem testset_ne {cs : Charset} {offset : Int} {n : Nat} :
    testset cs offset ≠ .iOpenCall n := by
  unfold testset
  cases charsettype cs <;> exact fun h => nomatch h

theorem char_sim {n : UInt8} :
    Sim code subject rules (.char n) i (matchChar subject i (· = n)) := by
  intro positions fuel opt tt fl part p stack capture henv hgen hplaced htt hfits hopt
  obtain ⟨fuel, rfl⟩ := codegen_pos hgen
  obtain rfl := Option.some.inj hgen
  exact arrives_char (step_codechar htt (hplaced.head.plain fun _ => codechar_ne))

theorem set_sim {st : Charset} :
    Sim code subject rules (.set st) i (matchChar subject i (testchar st)) := by
  intro positions fuel opt tt fl part p stack capture henv hgen hplaced htt hfits hopt
  obtain ⟨fuel, rfl⟩ := codegen_pos hgen
  obtain rfl := Option.some.inj hgen
  exact arrives_char (step_codecharset htt (hplaced.head.plain fun _ => codecharset_ne))

theorem any_sim : Sim code subject rules .any i (matchChar subject i fun _ => true) := by
  intro positions fuel opt tt fl part p stack capture henv hgen hplaced htt hfits hopt
  obtain ⟨fuel, rfl⟩ := codegen_pos hgen
  obtain rfl := Option.some.inj hgen
  refine arrives_char ?_
  have hany : code[p]? = some .iAny := hplaced.head
  simp only [turn, hany]
  split <;> rfl

theorem true_sim : Sim code subject rules .true i (some (i, [])) := by
  intro positions fuel opt tt fl part p stack capture henv hgen hplaced htt hfits hopt
  obtain ⟨fuel, rfl⟩ := codegen_pos hgen
  obtain rfl := Option.some.inj hgen
  refine .inl ?_
  rw [List.append_nil]
  exact Meets.refl

theorem false_sim : Sim code subject rules .false i none := by
  intro positions fuel opt tt fl part p stack capture henv hgen hplaced htt hfits hopt
  obtain ⟨fuel, rfl⟩ := codegen_pos hgen
  obtain rfl := Option.some.inj hgen
  have hfail : code[p]? = some .iFail := hplaced.head
  exact Meets.of_step (by simp only [turn, hfail])

theorem Arrives.cases_run {start : State} {next : Nat} {stack : List Frame} {capture : List Capture}
    (h : Arrives code subject start false fl stack capture next (some (j, caps))) :
    Meets (turn code subject) start (.run next j stack (capture ++ caps)) ∨
      ∃ c, subject[j]? = some c ∧ testchar fl c = false ∧
        Meets (turn code subject) start (.fail stack capture) := by
  obtain hrun | hfail | ⟨hopt, -⟩ := h
  · exact .inl hrun
  · exact .inr hfail
  · cases hopt

theorem codeseq1_some {gen : Gen} {code₁ : List Instruction} {tt' : Option Instruction}
    (h : codeseq1 gen fuel rules x y tt fl = some (code₁, tt')) :
    ∃ fl₁ len, gen rules x false tt fl₁ = some code₁ ∧
      (fl₁ = fullset ∨ ∃ e, getfirst fuel rules y fl = some (fl₁, e)) ∧
      fixedlen fuel rules x = some len ∧ tt' = if len = some 0 then tt else none := by
  simp only [codeseq1, Option.bind_eq_bind, Option.bind_eq_some_iff] at h
  obtain ⟨fl₁, hfl₁, code₁, hcode₁, len, hlen, h⟩ := h
  obtain ⟨rfl, rfl⟩ := Prod.mk.inj (Option.some.inj h)
  refine ⟨fl₁, len, hcode₁, ?_, hlen, rfl⟩
  rw [followFirst] at hfl₁
  split at hfl₁
  · obtain ⟨⟨first, e⟩, hfirst, rfl⟩ := Option.map_eq_some_iff.mp hfl₁
    exact .inr ⟨e, hfirst⟩
  · exact .inl (Option.some.inj hfl₁).symm

theorem codegen_seq (h : codegen (fuel + 1) rules (.seq x y) opt tt fl = some part) :
    ∃ code₁ tt' code₂, codeseq1 (codegen fuel) fuel rules x y tt fl = some (code₁, tt') ∧
      codegen fuel rules y opt tt' fl = some code₂ ∧ part = code₁ ++ code₂ := by
  simp only [codegen, Option.bind_eq_bind, Option.bind_eq_some_iff] at h
  obtain ⟨⟨code₁, tt'⟩, h₁, code₂, h₂, h⟩ := h
  exact ⟨code₁, tt', code₂, h₁, h₂, (Option.some.inj h).symm⟩

theorem seq_fail_sim (hx : Sim code subject rules x i none) :
    Sim code subject rules (.seq x y) i none := by
  intro positions fuel opt tt fl part p stack capture henv hgen hplaced htt hfits hopt
  obtain ⟨fuel, rfl⟩ := codegen_pos hgen
  obtain ⟨code₁, tt', code₂, hseq, -, rfl⟩ := codegen_seq hgen
  obtain ⟨fl₁, len, hcode₁, -, -, -⟩ := codeseq1_some hseq
  have hfirst := hx _ _ _ _ _ _ _ _ _ henv hcode₁ hplaced.left htt hfits fun h => nomatch h
  exact hfirst

theorem seq_sim (hmeans : Means subject rules x i (some (j, caps)))
    (hx : Sim code subject rules x i (some (j, caps)))
    (hmeans' : Means subject rules y j r) (hy : Sim code subject rules y j r)
    (hformed : x.WellFormed) (hformed' : y.WellFormed) :
    Sim code subject rules (.seq x y) i (r.map fun m => (m.1, caps ++ m.2)) := by
  intro positions fuel opt tt fl part p stack capture henv hgen hplaced htt hfits hopt
  obtain ⟨fuel, rfl⟩ := codegen_pos hgen
  obtain ⟨code₁, tt', code₂, hseq, hcode₂, rfl⟩ := codegen_seq hgen
  obtain ⟨fl₁, len, hcode₁, hfl₁, hlen, htt'⟩ := codeseq1_some hseq
  have hfirst := hx _ _ _ _ _ _ _ _ _ henv hcode₁ hplaced.left htt hfits fun h => nomatch h
  have hprotects : Protects subject j tt' := by
    rw [htt']
    split
    · rename_i hzero
      rw [hzero] at hlen
      have heq := hmeans.fixedlenx henv.formed hformed Known.refl hlen rfl
      obtain rfl : j = i := by omega
      exact htt
    · trivial
  rw [List.length_append, ← Nat.add_assoc]
  obtain hrun | ⟨c, hc, hout, hfail⟩ := hfirst.cases_run
  · have hsecond := hy _ _ _ _ _ _ _ _ (capture ++ caps) henv hcode₂ hplaced.right hprotects
      (hfits.append caps) hopt
    exact (hsecond.head hrun).captures hfits
  · obtain rfl | ⟨e, hfollow⟩ := hfl₁
    · rw [testchar_full] at hout
      cases hout
    · cases r with
      | none => exact hfail
      | some m =>
        obtain ⟨k, caps'⟩ := m
        obtain ⟨rfl, hnext⟩ := hmeans'.excluded henv.formed hformed' hfollow hc hout rfl
        exact .inr (.inl ⟨c, hc, hnext, hfail⟩)

theorem Arrives.extend {start : State} {next next' : Nat} {stack : List Frame}
    {capture : List Capture}
    (h : Arrives code subject start false fl stack capture next (some (j, caps)))
    (hnext : Meets (turn code subject) (.run next j stack (capture ++ caps))
      (.run next' j stack (capture ++ caps))) :
    Arrives code subject start opt fl stack capture next' (some (j, caps)) := by
  obtain hrun | hfail := h.cases_run
  · exact .inl (hrun.trans hnext)
  · exact .inr (.inl hfail)

theorem Means.at_first {cs : Charset} {e : Bool} (h : Means subject rules t i (some (j, caps)))
    (hrules : AllFormed rules) (ht : t.WellFormed)
    (hfirst : getfirst fuel rules t fullset = some (cs, e))
    (hsure : headfail fuel rules t = some Bool.true ∨ e = Bool.false) :
    atChar subject i (testchar cs) = Bool.true := by
  cases hc : subject[i]? with
  | none =>
    obtain hhead | rfl := hsure
    · cases h.head_at_end hhead hc
    · cases h.fails_at_end hrules ht hfirst hc
  | some c =>
    rw [atChar, hc]
    by_contra hout
    have hfull := (h.excluded hrules ht hfirst hc (Bool.eq_false_iff.mpr hout) rfl).2
    rw [testchar_full] at hfull
    cases hfull

variable (subject i) in
/-- A test before code: where its set has not the character, it leads `n` instructions into the
code, which is else protected. -/
theorem meets_atTest (stack : List Frame) (capture : List Capture) (n : Nat) {cs : Charset}
    {e : Bool} {offset : Int} {rest : List Instruction} {positions : List Nat} {p : Nat}
    (h : Placed code positions p (atTest (codetestset cs e) offset ++ rest))
    (hoffset : offset = 1 + n) : ∃ p', Placed code positions p' rest ∧
      p + (atTest (codetestset cs e) offset ++ rest).length = p' + rest.length ∧
      ((e = false ∧ atChar subject i (testchar cs) = false ∧ Meets (turn code subject)
          (.run p i stack capture) (.run (p' + n) i stack capture)) ∨
        (Meets (turn code subject) (.run p i stack capture) (.run p' i stack capture) ∧
          (e = false → atChar subject i (testchar cs) = true) ∧
            Protects subject i (protect (codetestset cs e)))) := by
  cases e with
  | true => exact ⟨p, h, rfl, .inr ⟨Meets.refl, (fun h => nomatch h), trivial⟩⟩
  | false =>
    refine ⟨p + 1, h.tail, ?_, ?_⟩
    · rw [codetestset, if_neg Bool.false_ne_true, atTest, Option.map_some, Option.toList_some,
        List.singleton_append, List.length_cons]
      omega
    have hstep := step_testset subject stack capture i
      (h.left.head.plain fun _ => testset_ne)
    cases hchar : atChar subject i (testchar cs) with
    | false =>
      have htarget : target p offset = p + 1 + n := by
        simp only [target]
        omega
      rw [hchar, if_neg Bool.false_ne_true, htarget] at hstep
      exact .inl ⟨rfl, rfl, Meets.of_step hstep⟩
    | true =>
      rw [hchar] at hstep
      exact .inr ⟨Meets.of_step hstep, fun _ => rfl, protects_testset hchar⟩

/-- With a full follow set and no option, code arrives wherever it is used. -/
theorem Arrives.full {start : State} {next next' : Nat} {stack : List Frame}
    {capture : List Capture} (hnext : next = next')
    (h : Arrives code subject start false fullset stack capture next r) :
    Arrives code subject start opt fl stack capture next' r := by
  subst hnext
  cases r with
  | none => exact h
  | some m => exact .inl h.run

section

variable {code₁ code₂ : List Instruction} {positions : List Nat} {p : Nat} {stack : List Frame}
  {capture : List Capture}

theorem step_choice {n : Nat} (hchoice : code[p]? = some (.iChoice (2 + n))) :
    turn code subject (.run p i stack capture) = some
      (.run (p + 1) i (.choice (p + (2 + n)) i capture.length :: stack) capture) := by
  have htarget : target p (2 + n) = p + (2 + n) := by
    simp only [target]
    omega
  simp only [turn, hchoice, htarget]

theorem optional_match
    (hplaced : Placed code positions p
      (.iChoice (2 + code₁.length) :: (code₁ ++ .iCommit (1 + code₂.length) :: code₂)))
    (hempty : opt = true → code₂ = [])
    (h : Arrives code subject
      (.run (p + 1) i (.choice (p + (2 + code₁.length)) i capture.length :: stack) capture)
      opt fullset (.choice (p + (2 + code₁.length)) i capture.length :: stack) capture
      (p + 1 + code₁.length) (some (j, caps))) :
    Meets (turn code subject) (.run p i stack capture)
      (.run (p + (2 + code₁.length + code₂.length)) j stack (capture ++ caps)) := by
  have hchoice : code[p]? = some (.iChoice (2 + code₁.length)) := hplaced.head
  have hcommit : code[p + 1 + code₁.length]? = some (.iCommit (1 + code₂.length)) :=
    hplaced.tail.right.head
  have htarget : target (p + 1 + code₁.length) (1 + code₂.length) =
      p + (2 + code₁.length + code₂.length) := by
    simp only [target]
    omega
  have hcommits (s' caplevel' : Nat) : Meets (turn code subject)
      (.run (p + 1 + code₁.length) j (.choice (p + (2 + code₁.length)) s' caplevel' :: stack)
        (capture ++ caps))
      (.run (p + (2 + code₁.length + code₂.length)) j stack (capture ++ caps)) :=
    Meets.of_step (by simp only [turn, hcommit, htarget])
  refine Meets.head (step_choice hchoice) ?_
  obtain hrun | ⟨c, -, hout, -⟩ | ⟨hopt, q, s, caplevel, rest, hstack, hrun⟩ := h
  · exact hrun.trans (hcommits _ _)
  · rw [testchar_full] at hout
    cases hout
  · cases hstack
    obtain hrun | ⟨s', caplevel', hrun⟩ := hrun
    · rw [hempty hopt, List.length_nil, Nat.add_zero]
      exact hrun
    · exact hrun.trans (hcommits _ _)

theorem optional_fail (hchoice : code[p]? = some (.iChoice (2 + code₁.length)))
    (h : Meets (turn code subject)
      (.run (p + 1) i (.choice (p + (2 + code₁.length)) i capture.length :: stack) capture)
      (.fail (.choice (p + (2 + code₁.length)) i capture.length :: stack) capture)) :
    Meets (turn code subject) (.run p i stack capture)
      (.run (p + (2 + code₁.length)) i stack capture) := by
  refine Meets.head (step_choice hchoice) (h.trans (Meets.of_step ?_))
  rw [fail_choice, List.take_length]

end

end

end Esp32Project.Lpeg
