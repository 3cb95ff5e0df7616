import Esp32Project.Lpeg.Simulation

/-!
The code of a choice and of a repetition, with and without an entry of the stack.
-/

set_option autoImplicit false

namespace Esp32Project.Lpeg
open Esp32Project.Lib

section

variable {code part : List Instruction} {subject : List UInt8} {rules : List Tree} {t x y : Tree}
  {i j k : Nat} {r : Option Match} {caps caps' : List Capture} {fuel : Nat} {opt : Bool}
  {tt : Option Instruction} {fl : Charset}

theorem codegen_isTrue (h : codegen fuel rules y opt tt fl = some part) (hy : isTrue y = true) :
    part = [] := by
  obtain ⟨fuel, rfl⟩ := codegen_pos h
  cases y with
  | true => exact (Option.some.inj h).symm
  | _ => cases hy

theorem choiceApart_true {cs₁ : Charset} {e₁ : Bool}
    (h : choiceApart fuel rules x y cs₁ e₁ fl = some true) :
    headfail fuel rules x = some true ∨ (e₁ = false ∧ ∃ cs₂ e₂,
      getfirst fuel rules y fl = some (cs₂, e₂) ∧ csDisjoint cs₁ cs₂ = true) := by
  simp only [choiceApart, Option.bind_eq_bind, Option.bind_eq_some_iff] at h
  obtain ⟨head, hhead, h⟩ := h
  cases head with
  | true => exact .inl hhead
  | false =>
    cases e₁ with
    | true => cases h
    | false =>
      simp only [Bool.false_eq_true, if_false, Option.bind_eq_some_iff] at h
      obtain ⟨⟨cs₂, e₂⟩, hcs₂, h⟩ := h
      exact .inr ⟨rfl, cs₂, e₂, hcs₂, Option.some.inj h⟩

theorem codechoice_some {gen : Gen} (h : codechoice gen fuel rules x y opt fl = some part) :
    ∃ cs₁ e₁, getfirst fuel rules x fullset = some (cs₁, e₁) ∧
      ((choiceApart fuel rules x y cs₁ e₁ fl = some true ∧ ∃ code₁ code₂ jmp,
          gen rules x false (some (testset cs₁ 0)) fl = some code₁ ∧
          gen rules y opt none fl = some code₂ ∧
          jmp = (if isTrue y then [] else [.iJmp (1 + code₂.length)]) ∧
          part = testset cs₁ (1 + code₁.length + jmp.length) :: (code₁ ++ jmp ++ code₂)) ∨
        (opt = true ∧ isTrue y = true ∧ ∃ code₁,
          gen rules x true none fullset = some code₁ ∧ part = .iPartialCommit 1 :: code₁) ∨
        ∃ code₁ code₂,
          gen rules x (isTrue y) (protect (codetestset cs₁ e₁)) fullset = some code₁ ∧
          gen rules y opt none fl = some code₂ ∧
          part = atTest (codetestset cs₁ e₁) (3 + code₁.length) ++
            .iChoice (2 + code₁.length) :: (code₁ ++ .iCommit (1 + code₂.length) :: code₂)) := by
  simp only [codechoice, Option.bind_eq_bind, Option.bind_eq_some_iff] at h
  obtain ⟨⟨cs₁, e₁⟩, hfirst, apart, hapart, h⟩ := h
  refine ⟨cs₁, e₁, hfirst, ?_⟩
  cases apart with
  | true =>
    simp only [if_true, Option.bind_eq_some_iff] at h
    obtain ⟨code₁, h₁, code₂, h₂, h⟩ := h
    exact .inl ⟨hapart, code₁, code₂, _, h₁, h₂, rfl, (Option.some.inj h).symm⟩
  | false =>
    simp only [Bool.false_eq_true, if_false] at h
    split at h
    · rename_i hopt
      simp only [Bool.and_eq_true] at hopt
      obtain ⟨code₁, h₁, h⟩ := Option.bind_eq_some_iff.mp h
      exact .inr (.inl ⟨hopt.1, hopt.2, code₁, h₁, (Option.some.inj h).symm⟩)
    · simp only [Option.bind_eq_some_iff] at h
      obtain ⟨code₁, h₁, code₂, h₂, h⟩ := h
      exact .inr (.inr ⟨code₁, code₂, h₁, h₂, (Option.some.inj h).symm⟩)

theorem choice_left_sim (hmeans : Means subject rules x i (some (j, caps)))
    (hx : Sim code subject rules x i (some (j, caps))) (hformed : x.WellFormed) :
    Sim code subject rules (.choice x y) i (some (j, caps)) := by
  intro positions fuel opt tt fl part p stack capture henv hgen hplaced htt hfits hopt
  obtain ⟨fuel, rfl⟩ := codegen_pos hgen
  obtain ⟨cs₁, e₁, hfirst, hcases⟩ := codechoice_some hgen
  obtain ⟨hapart, code₁, code₂, jmp, hcode₁, hcode₂, hjmp, rfl⟩ |
    ⟨rfl, hempty, code₁, hcode₁, rfl⟩ | ⟨code₁, code₂, hcode₁, hcode₂, rfl⟩ := hcases
  · -- the test of the first set chooses
    have hsure : headfail fuel rules x = some true ∨ e₁ = false :=
      (choiceApart_true hapart).imp id And.left
    have hchar := hmeans.at_first henv.formed hformed hfirst hsure
    have hstep := step_testset subject stack capture i
      (hplaced.head.plain fun _ => testset_ne)
    rw [hchar, if_pos rfl] at hstep
    have hbody := hx _ _ _ _ _ _ _ _ _ henv hcode₁ hplaced.tail.left.left
      (protects_testset hchar) hfits fun h => absurd h Bool.false_ne_true
    refine Arrives.head (hbody.extend ?_) (Meets.of_step hstep)
    cases hempty : isTrue y with
    | true =>
      obtain rfl := codegen_isTrue hcode₂ hempty
      simp only [hempty, if_true] at hjmp
      subst hjmp
      have hnext : p + 1 + code₁.length = p + (testset cs₁ (1 + code₁.length +
          ([] : List Instruction).length) :: (code₁ ++ [] ++ [])).length := by
        simp only [List.length_cons, List.append_nil]
        omega
      rw [hnext]
      exact Meets.refl
    | false =>
      simp only [hempty, Bool.false_eq_true, if_false] at hjmp
      subst hjmp
      have hcode : code[p + 1 + code₁.length]? = some (.iJmp (1 + code₂.length)) :=
        hplaced.tail.left.right.head
      refine Meets.of_step ?_
      simp only [turn, hcode, target, Option.some.injEq, State.run.injEq, and_true,
        List.length_cons, List.length_append, List.length_nil]
      omega
  · -- the entry of the option serves again
    obtain ⟨rfl, q, s, caplevel, rest, rfl⟩ := hopt rfl
    have hcommit : code[p]? = some (.iPartialCommit 1) := hplaced.head
    have hbody := hx _ _ _ _ _ _ (p + 1) (.choice q i capture.length :: rest) capture henv hcode₁
      hplaced.tail trivial
      (Fits.choice (fun p s l hmem => hfits p s l (List.mem_cons_of_mem _ hmem)) q i)
      fun _ => ⟨rfl, q, i, capture.length, rest, rfl⟩
    have hstep : turn code subject (.run p i (.choice q s caplevel :: rest) capture) =
        some (.run (p + 1) i (.choice q i capture.length :: rest) capture) := by
      simp only [turn, hcommit, target]
      rfl
    have hnext : p + (Instruction.iPartialCommit 1 :: code₁).length = p + 1 + code₁.length := by
      rw [List.length_cons]
      omega
    rw [hnext]
    obtain hrun | ⟨c, -, hout, -⟩ | ⟨-, q', s', caplevel', rest', hstack, hrun⟩ := hbody
    · exact .inr (.inr ⟨rfl, q, s, caplevel, rest, rfl, .inr ⟨i, capture.length, hrun.head hstep⟩⟩)
    · rw [testchar_full] at hout
      cases hout
    · cases hstack
      refine .inr (.inr ⟨rfl, q, s, caplevel, rest, rfl, ?_⟩)
      obtain hrun | ⟨s'', caplevel'', hrun⟩ := hrun
      · exact .inl (hrun.head hstep)
      · exact .inr ⟨s'', caplevel'', hrun.head hstep⟩
  · -- a new entry of the stack
    obtain ⟨p', hplaced', hlength, htest⟩ := meets_atTest subject i stack
      capture (2 + code₁.length) hplaced (by omega)
    obtain ⟨rfl, hchar, -⟩ | ⟨hstart, -, hprotects⟩ := htest
    · rw [hmeans.at_first henv.formed hformed hfirst (.inr rfl)] at hchar
      cases hchar
    · have hbody := hx _ _ _ _ _ _ _
        (.choice (p' + (2 + code₁.length)) i capture.length :: stack) capture henv hcode₁
        hplaced'.tail.left hprotects (hfits.choice _ i) fun _ => ⟨rfl, _, _, _, _, rfl⟩
      have hmatch := optional_match hplaced' (fun hempty => codegen_isTrue hcode₂ hempty) hbody
      rw [hlength]
      refine .inl (hstart.trans ?_)
      simpa only [List.length_cons, List.length_append, show code₁.length +
        (code₂.length + 1) + 1 = 2 + code₁.length + code₂.length by omega] using hmatch

theorem Arrives.second {start : State} {next next' : Nat} {stack : List Frame}
    {capture : List Capture} (hnext : next = next')
    (h : Arrives code subject start opt fl stack capture next r) :
    Arrives code subject start opt fl stack capture next' r := hnext ▸ h

theorem choice_right_sim (hmeans : Means subject rules x i none)
    (hx : Sim code subject rules x i none) (hmeans' : Means subject rules y i r)
    (hy : Sim code subject rules y i r) (hformed' : y.WellFormed) :
    Sim code subject rules (.choice x y) i r := by
  intro positions fuel opt tt fl part p stack capture henv hgen hplaced htt hfits hopt
  obtain ⟨fuel, rfl⟩ := codegen_pos hgen
  obtain ⟨cs₁, e₁, hfirst, hcases⟩ := codechoice_some hgen
  obtain ⟨hapart, code₁, code₂, jmp, hcode₁, hcode₂, -, rfl⟩ |
    ⟨rfl, hempty, code₁, hcode₁, rfl⟩ | ⟨code₁, code₂, hcode₁, hcode₂, rfl⟩ := hcases
  · -- the test of the first set chooses
    have hstep := step_testset subject stack capture i
      (hplaced.head.plain fun _ => testset_ne)
    cases hchar : atChar subject i (testchar cs₁) with
    | false =>
      have htarget : target p (1 + code₁.length + jmp.length) =
          p + 1 + (code₁ ++ jmp).length := by
        simp only [target, List.length_append]
        omega
      rw [hchar, if_neg Bool.false_ne_true, htarget] at hstep
      have hsecond := hy _ _ _ _ _ _ _ _ _ henv hcode₂ hplaced.tail.right trivial hfits hopt
      refine (hsecond.head (Meets.of_step hstep)).second ?_
      simp only [List.length_cons, List.length_append]
      omega
    | true =>
      rw [hchar, if_pos rfl] at hstep
      have hbody := hx _ _ _ _ _ _ _ _ _ henv hcode₁ hplaced.tail.left.left
        (protects_testset hchar) hfits fun h => absurd h Bool.false_ne_true
      have hfail := Meets.head hstep hbody
      rw [atChar] at hchar
      split at hchar
      · rename_i c hc
        obtain hhead | ⟨-, cs₂, e₂, hfollow, hdisjoint⟩ := choiceApart_true hapart
        · exact absurd rfl (hmeans.head hhead hfirst hc hchar)
        · cases r with
          | none => exact hfail
          | some m =>
            obtain ⟨k, caps⟩ := m
            obtain ⟨rfl, hout⟩ := hmeans'.excluded henv.formed hformed' hfollow hc
              (csDisjoint_not hdisjoint hchar) rfl
            exact .inr (.inl ⟨c, hc, hout, hfail⟩)
      · cases hchar
  · -- the entry of the option serves again
    obtain ⟨rfl, q, s, caplevel, rest, rfl⟩ := hopt rfl
    have hcommit : code[p]? = some (.iPartialCommit 1) := hplaced.head
    have hfail : Meets (turn code subject) _ _ := hx _ _ _ _ _ _ (p + 1)
      (.choice q i capture.length :: rest) capture henv hcode₁ hplaced.tail trivial
      (Fits.choice (fun p s l hmem => hfits p s l (List.mem_cons_of_mem _ hmem)) q i)
      fun _ => ⟨rfl, q, i, capture.length, rest, rfl⟩
    have hstep : turn code subject (.run p i (.choice q s caplevel :: rest) capture) =
        some (.run (p + 1) i (.choice q i capture.length :: rest) capture) := by
      simp only [turn, hcommit, target]
      rfl
    have hback : turn code subject (.fail (.choice q i capture.length :: rest) capture) =
        some (.run q i rest (capture ++ [])) := by
      rw [fail_choice, List.take_length, List.append_nil]
    cases y with
    | true =>
      cases hmeans'
      exact .inr (.inr ⟨rfl, q, s, caplevel, rest, rfl,
        .inl ((hfail.head hstep).trans (Meets.of_step hback))⟩)
    | _ => cases hempty
  · -- a new entry of the stack
    obtain ⟨p', hplaced', hlength, htest⟩ := meets_atTest subject i stack
      capture (2 + code₁.length) hplaced (by omega)
    have hsecond : Arrives code subject (.run (p' + (2 + code₁.length)) i stack capture) opt fl
        stack capture (p + (atTest (codetestset cs₁ e₁) (3 + code₁.length) ++
          .iChoice (2 + code₁.length) :: (code₁ ++ .iCommit (1 + code₂.length) :: code₂)).length)
        r := by
      have hplaced₂ : Placed code positions (p' + (2 + code₁.length)) code₂ := by
        have := hplaced'.tail.right.tail
        rwa [show p' + 1 + code₁.length + 1 = p' + (2 + code₁.length) by omega] at this
      refine (hy _ _ _ _ _ _ _ _ _ henv hcode₂ hplaced₂ trivial hfits hopt).second ?_
      rw [hlength]
      simp only [List.length_cons, List.length_append]
      omega
    obtain ⟨rfl, hchar, hstart⟩ | ⟨hstart, -, hprotects⟩ := htest
    · exact hsecond.head hstart
    · have hfail : Meets (turn code subject) _ _ := hx _ _ _ _ _ _ _
        (.choice (p' + (2 + code₁.length)) i capture.length :: stack) capture henv hcode₁
        hplaced'.tail.left hprotects (hfits.choice _ i) fun _ => ⟨rfl, _, _, _, _, rfl⟩
      exact hsecond.head (hstart.trans (optional_fail hplaced'.head hfail))

theorem coderep_some {gen : Gen} (h : coderep gen fuel rules x opt fl = some part) :
    (∃ st, toCharset x = some st ∧ part = [.iSpan st]) ∨
      ∃ st e₁, getfirst fuel rules x fullset = some (st, e₁) ∧
        (((headfail fuel rules x = some true ∨ (e₁ = false ∧ csDisjoint st fl = true)) ∧
            ∃ code₁, gen rules x false (some (testset st 0)) fullset = some code₁ ∧
              part = testset st (2 + code₁.length) :: (code₁ ++ [.iJmp (-(1 + code₁.length))])) ∨
          ∃ code₁, gen rules x false none fullset = some code₁ ∧
            part = atTest (codetestset st e₁) (3 + code₁.length) ++
              (if opt then .iPartialCommit 1 else .iChoice (2 + code₁.length)) ::
                (code₁ ++ [.iPartialCommit (-code₁.length)])) := by
  unfold coderep at h
  split at h
  · rename_i st hst
    exact .inl ⟨st, hst, (Option.some.inj h).symm⟩
  · simp only [Option.bind_eq_bind, Option.bind_eq_some_iff] at h
    obtain ⟨⟨st, e₁⟩, hfirst, head, hhead, h⟩ := h
    refine .inr ⟨st, e₁, hfirst, ?_⟩
    split at h
    · rename_i hsure
      obtain ⟨code₁, hcode₁, h⟩ := Option.bind_eq_some_iff.mp h
      refine .inl ⟨?_, code₁, hcode₁, (Option.some.inj h).symm⟩
      simp only [Bool.or_eq_true, Bool.and_eq_true, Bool.not_eq_true'] at hsure
      obtain rfl | hsure := hsure
      · exact .inl hhead
      · exact .inr hsure
    · obtain ⟨code₁, hcode₁, h⟩ := Option.bind_eq_some_iff.mp h
      exact .inr ⟨code₁, hcode₁, (Option.some.inj h).symm⟩

/-- The loop of a repetition inside of an entry of the stack, which brings it to `q` at the end. -/
def Loops (code : List Instruction) (subject : List UInt8) (rules : List Tree) (x : Tree)
    (i k : Nat) (caps : List Capture) : Prop :=
  ∀ (positions : List Nat) (fuel : Nat) (code₁ : List Instruction) (p q : Nat)
    (stack : List Frame) (capture : List Capture), Env code rules positions →
      codegen fuel rules x false none fullset = some code₁ →
        Placed code positions p (code₁ ++ [.iPartialCommit (-code₁.length)]) →
          Fits stack capture.length → Meets (turn code subject)
            (.run p i (.choice q i capture.length :: stack) capture)
            (.run q k stack (capture ++ caps))

theorem loops_stop (hx : Sim code subject rules x i none) : Loops code subject rules x i i [] := by
  intro positions fuel code₁ p q stack capture henv hcode₁ hplaced hfits
  have hbody := hx _ _ _ _ _ _ _ _ _ henv hcode₁ hplaced.left trivial (hfits.choice q i)
    fun h => absurd h Bool.false_ne_true
  refine Meets.trans hbody (Meets.of_step ?_)
  rw [fail_choice, List.take_length, List.append_nil]

theorem loops_more (hx : Sim code subject rules x i (some (j, caps)))
    (hmore : Loops code subject rules x j k caps') :
    Loops code subject rules x i k (caps ++ caps') := by
  intro positions fuel code₁ p q stack capture henv hcode₁ hplaced hfits
  have hbody := hx _ _ _ _ _ _ _ _ _ henv hcode₁ hplaced.left trivial (hfits.choice q i)
    fun h => absurd h Bool.false_ne_true
  have hcommit : code[p + code₁.length]? = some (.iPartialCommit (-code₁.length)) :=
    hplaced.right.head
  have htarget : target (p + code₁.length) (-code₁.length) = p := by
    simp only [target]
    omega
  have hrest := hmore _ _ _ p q stack (capture ++ caps) henv hcode₁ hplaced (hfits.append caps)
  rw [List.append_assoc] at hrest
  refine hbody.run.trans (Meets.head ?_ hrest)
  simp only [turn, hcommit, htarget]

theorem step_span {st : Charset} {p : Nat} {stack : List Frame} {capture : List Capture}
    (h : code[p]? = some (.iSpan st)) :
    turn code subject (.run p i stack capture) =
      some (.run (p + 1) (i + ((subject.drop i).takeWhile (testchar st)).length)
        stack capture) := by
  simp only [turn, h]

theorem atChar_some {member : UInt8 → Bool} {c : UInt8} (h : subject[i]? = some c) :
    atChar subject i member = member c := by
  rw [atChar, h]

theorem span_stop {st : Charset} (h : atChar subject i (testchar st) = false) :
    (subject.drop i).takeWhile (testchar st) = [] := by
  cases hc : subject[i]? with
  | none => rw [List.drop_eq_nil_of_le (List.getElem?_eq_none_iff.mp hc), List.takeWhile_nil]
  | some c =>
    rw [atChar_some hc] at h
    obtain ⟨hlt, rfl⟩ := List.getElem?_eq_some_iff.mp hc
    rw [List.drop_eq_getElem_cons hlt, List.takeWhile_cons_of_neg (Bool.eq_false_iff.mp h)]

theorem span_more {st : Charset} (h : atChar subject i (testchar st) = true) :
    ((subject.drop i).takeWhile (testchar st)).length =
      ((subject.drop (i + 1)).takeWhile (testchar st)).length + 1 := by
  cases hc : subject[i]? with
  | none =>
    rw [atChar, hc] at h
    cases h
  | some c =>
    rw [atChar_some hc] at h
    obtain ⟨hlt, rfl⟩ := List.getElem?_eq_some_iff.mp hc
    rw [List.drop_eq_getElem_cons hlt, List.takeWhile_cons_of_pos h, List.length_cons]

theorem Loops.enter {positions : List Nat} {code₁ : List Instruction} {p next : Nat}
    {stack : List Frame} {capture : List Capture} (hloops : Loops code subject rules x i k caps)
    (henv : Env code rules positions)
    (hcode₁ : codegen fuel rules x false none fullset = some code₁)
    (hplaced : Placed code positions p
      ((if opt then .iPartialCommit 1 else .iChoice (2 + code₁.length)) ::
        (code₁ ++ [.iPartialCommit (-code₁.length)])))
    (hfits : Fits stack capture.length)
    (hopt : opt = true → fl = fullset ∧ ∃ q s caplevel rest, stack = .choice q s caplevel :: rest)
    (hnext : p + (2 + code₁.length) = next) :
    Arrives code subject (.run p i stack capture) opt fl stack capture next (some (k, caps)) := by
  cases opt with
  | false =>
    have hloop := hloops _ _ _ (p + 1) (p + (2 + code₁.length)) stack capture henv hcode₁
      hplaced.tail hfits
    exact .inl (hnext ▸ Meets.head (step_choice hplaced.head) hloop)
  | true =>
    obtain ⟨-, q, s, caplevel, rest, rfl⟩ := hopt rfl
    have hcommit : code[p]? = some (.iPartialCommit 1) := hplaced.head
    have hloop := hloops _ _ _ (p + 1) q rest capture henv hcode₁ hplaced.tail
      fun p s l hmem => hfits p s l (List.mem_cons_of_mem _ hmem)
    refine .inr (.inr ⟨rfl, q, s, caplevel, rest, rfl, .inl (Meets.head ?_ hloop)⟩)
    simp only [turn, hcommit, target]
    rfl

theorem rep_stop_sim (hmeans : Means subject rules x i none)
    (hx : Sim code subject rules x i none) :
    Sim code subject rules (.rep x) i (some (i, [])) := by
  intro positions fuel opt tt fl part p stack capture henv hgen hplaced htt hfits hopt
  obtain ⟨fuel, rfl⟩ := codegen_pos hgen
  obtain ⟨st, hset, rfl⟩ | ⟨st, e₁, hfirst, hcases⟩ := coderep_some hgen
  · -- a span of characters
    have hnone := (hmeans.of_charset hset).symm
    have hchar : atChar subject i (testchar st) = false := by
      rw [matchChar_atChar] at hnone
      split at hnone
      · cases hnone
      · rename_i hchar
        exact Bool.eq_false_iff.mpr hchar
    refine .inl (Meets.of_step ?_)
    rw [step_span hplaced.head, span_stop hchar, List.append_nil]
    rfl
  obtain ⟨hsure, code₁, hcode₁, rfl⟩ | ⟨code₁, hcode₁, rfl⟩ := hcases
  · -- the test of the first set ends the loop
    have hstep := step_testset subject stack capture i
      (hplaced.head.plain fun _ => testset_ne)
    cases hchar : atChar subject i (testchar st) with
    | false =>
      have htarget : target p (2 + code₁.length) = p + (testset st (2 + code₁.length) ::
          (code₁ ++ [.iJmp (-(1 + code₁.length))])).length := by
        simp only [target, List.length_cons, List.length_append, List.length_nil]
        omega
      rw [hchar, if_neg Bool.false_ne_true, htarget] at hstep
      refine .inl (Meets.of_step ?_)
      rw [hstep, List.append_nil]
    | true =>
      rw [hchar, if_pos rfl] at hstep
      have hbody := hx _ _ _ _ _ _ _ _ _ henv hcode₁ hplaced.tail.left
        (protects_testset hchar) hfits fun h => absurd h Bool.false_ne_true
      rw [atChar] at hchar
      split at hchar
      · rename_i c hc
        obtain hhead | ⟨-, hdisjoint⟩ := hsure
        · exact absurd rfl (hmeans.head hhead hfirst hc hchar)
        · exact .inr (.inl ⟨c, hc, csDisjoint_not hdisjoint hchar, Meets.head hstep hbody⟩)
      · cases hchar
  · -- a choice for the loop
    obtain ⟨p', hplaced', hlength, htest⟩ := meets_atTest subject i stack
      capture (2 + code₁.length) hplaced (by omega)
    rw [hlength]
    have hend : p' + (2 + code₁.length) =
        p' + ((if opt then .iPartialCommit 1 else .iChoice (2 + code₁.length)) ::
          (code₁ ++ [.iPartialCommit (-code₁.length)])).length := by
      simp only [List.length_cons, List.length_append, List.length_nil]
      omega
    obtain ⟨-, -, hstart⟩ | ⟨hstart, -⟩ := htest
    · refine .inl ?_
      rw [List.append_nil, ← hend]
      exact hstart
    · exact ((loops_stop hx).enter henv hcode₁ hplaced' hfits hopt hend).head hstart

theorem rep_more_sim (hmeans : Means subject rules x i (some (j, caps)))
    (hx : Sim code subject rules x i (some (j, caps)))
    (hmore : Sim code subject rules (.rep x) j (some (k, caps')))
    (hloops : Loops code subject rules x j k caps') (hformed : x.WellFormed) :
    Sim code subject rules (.rep x) i (some (k, caps ++ caps')) := by
  intro positions fuel opt tt fl part p stack capture henv hgen hplaced htt hfits hopt
  obtain ⟨fuel, rfl⟩ := codegen_pos hgen
  have hagain : codegen (fuel + 1) rules (.rep x) opt none fl = some part := hgen
  have hrest := hmore _ _ _ _ _ _ _ stack (capture ++ caps) henv hagain hplaced trivial
    (hfits.append caps) hopt
  obtain ⟨st, hset, rfl⟩ | ⟨st, e₁, hfirst, hcases⟩ := coderep_some hgen
  · -- a span of characters
    have hsome := (hmeans.of_charset hset).symm
    rw [matchChar_atChar] at hsome
    split at hsome
    · rename_i hchar
      obtain ⟨rfl, rfl⟩ := Prod.mk.inj (Option.some.inj hsome)
      rw [List.append_nil] at hrest
      refine hrest.head ((Meets.of_step ?_).trans (Meets.of_step (step_span hplaced.head)).symm)
      rw [step_span hplaced.head, span_more hchar, Nat.add_assoc, Nat.add_comm 1]
    · cases hsome
  obtain ⟨hsure, code₁, hcode₁, rfl⟩ | ⟨code₁, hcode₁, rfl⟩ := hcases
  · -- the test of the first set ends the loop
    have hchar := hmeans.at_first henv.formed hformed hfirst (hsure.imp id And.left)
    have hstep := step_testset subject stack capture i
      (hplaced.head.plain fun _ => testset_ne)
    rw [hchar, if_pos rfl] at hstep
    have hbody := hx _ _ _ _ _ _ _ _ _ henv hcode₁ hplaced.tail.left
      (protects_testset hchar) hfits fun h => absurd h Bool.false_ne_true
    have hjmp : code[p + 1 + code₁.length]? = some (.iJmp (-(1 + code₁.length))) :=
      hplaced.tail.right.head
    have htarget : target (p + 1 + code₁.length) (-(1 + code₁.length)) = p := by
      simp only [target]
      omega
    have hback : turn code subject (.run (p + 1 + code₁.length) j stack (capture ++ caps)) =
        some (.run p j stack (capture ++ caps)) := by
      simp only [turn, hjmp, htarget]
    exact (hrest.head ((Meets.head hstep hbody.run).trans (Meets.of_step hback))).captures hfits
  · -- a choice for the loop
    obtain ⟨p', hplaced', hlength, htest⟩ := meets_atTest subject i stack
      capture (2 + code₁.length) hplaced (by omega)
    obtain ⟨rfl, hchar, -⟩ | ⟨hstart, -⟩ := htest
    · rw [hmeans.at_first henv.formed hformed hfirst (.inr rfl)] at hchar
      cases hchar
    · rw [hlength]
      refine ((loops_more hx hloops).enter henv hcode₁ hplaced' hfits hopt ?_).head hstart
      simp only [List.length_cons, List.length_append, List.length_nil]
      omega

end

end Esp32Project.Lpeg
