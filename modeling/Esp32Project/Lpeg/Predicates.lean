import Esp32Project.Lpeg.Simulation

/-!
The code of the predicates, of a look-behind and of a capture.
-/

set_option autoImplicit false

namespace Esp32Project.Lpeg
open Esp32Project.Lib

section

variable {code part : List Instruction} {subject : List UInt8} {rules : List Tree} {t x y : Tree}
  {i j k : Nat} {r : Option Match} {caps caps' : List Capture} {fuel : Nat} {opt : Bool}
  {tt : Option Instruction} {fl : Charset}

theorem codenot_some {gen : Gen} (h : codenot gen fuel rules x = some part) :
    ∃ st e, getfirst fuel rules x fullset = some (st, e) ∧
      ((headfail fuel rules x = some true ∧ part = atTest (codetestset st e) 2 ++ [.iFail]) ∨
        ∃ code₁, gen rules x false none fullset = some code₁ ∧
          part = atTest (codetestset st e) (3 + code₁.length) ++
            .iChoice (2 + code₁.length) :: (code₁ ++ [.iFailTwice])) := by
  simp only [codenot, Option.bind_eq_bind, Option.bind_eq_some_iff] at h
  obtain ⟨⟨st, e⟩, hfirst, head, hhead, h⟩ := h
  refine ⟨st, e, hfirst, ?_⟩
  cases head with
  | true => exact .inl ⟨hhead, (Option.some.inj h).symm⟩
  | false =>
    simp only [Bool.false_eq_true, if_false, Option.bind_eq_some_iff] at h
    obtain ⟨code₁, hcode₁, h⟩ := h
    exact .inr ⟨code₁, hcode₁, (Option.some.inj h).symm⟩

theorem not_fail_sim (hmeans : Means subject rules x i (some (j, caps)))
    (hx : Sim code subject rules x i (some (j, caps))) (hformed : x.WellFormed) :
    Sim code subject rules (.not x) i none := by
  intro positions fuel opt tt fl part p stack capture henv hgen hplaced htt hfits hopt
  obtain ⟨fuel, rfl⟩ := codegen_pos hgen
  obtain ⟨st, e, hfirst, ⟨hhead, rfl⟩ | ⟨code₁, hcode₁, rfl⟩⟩ := codenot_some hgen
  · obtain ⟨p', hplaced', -, ⟨rfl, hchar, -⟩ | ⟨hstart, -, -⟩⟩ := meets_atTest
      subject i stack capture 1 hplaced rfl
    · rw [hmeans.at_first henv.formed hformed hfirst (.inl hhead)] at hchar
      cases hchar
    · have hfail : code[p']? = some .iFail := hplaced'.head
      exact hstart.trans (Meets.of_step (by simp only [turn, hfail]))
  · obtain ⟨p', hplaced', -, ⟨rfl, hchar, -⟩ | ⟨hstart, -, -⟩⟩ := meets_atTest
      subject i stack capture (2 + code₁.length) hplaced (by omega)
    · rw [hmeans.at_first henv.formed hformed hfirst (.inr rfl)] at hchar
      cases hchar
    · have hbody := hx _ _ _ _ _ _ _
        (.choice (p' + (2 + code₁.length)) i capture.length :: stack) capture henv hcode₁
        hplaced'.tail.left trivial (hfits.choice _ i) fun h => absurd h Bool.false_ne_true
      have htwice : code[p' + 1 + code₁.length]? = some .iFailTwice := hplaced'.tail.right.head
      have hpop : turn code subject (.run (p' + 1 + code₁.length) j
          (.choice (p' + (2 + code₁.length)) i capture.length :: stack) (capture ++ caps)) =
            some (.fail stack (capture ++ caps)) := by
        simp only [turn, htwice]
      exact hstart.trans (Meets.head (step_choice hplaced'.head)
        (hbody.run.trans (Meets.head hpop (fail_captures hfits))))

theorem not_sim (hmeans : Means subject rules x i none) (hx : Sim code subject rules x i none) :
    Sim code subject rules (.not x) i (some (i, [])) := by
  intro positions fuel opt tt fl part p stack capture henv hgen hplaced htt hfits hopt
  obtain ⟨fuel, rfl⟩ := codegen_pos hgen
  refine .inl ?_
  rw [List.append_nil]
  obtain ⟨st, e, hfirst, ⟨hhead, rfl⟩ | ⟨code₁, hcode₁, rfl⟩⟩ := codenot_some hgen
  · obtain ⟨p', hplaced', hlength, ⟨-, -, hstart⟩ | ⟨-, hchar, -⟩⟩ := meets_atTest
      subject i stack capture 1 hplaced rfl
    · rw [hlength]
      exact hstart
    · have hin := hchar (headfail_nonempty hhead hfirst)
      rw [atChar] at hin
      split at hin
      · rename_i c hc
        exact absurd rfl (hmeans.head hhead hfirst hc hin)
      · cases hin
  · obtain ⟨p', hplaced', hlength, htest⟩ := meets_atTest subject i stack
      capture (2 + code₁.length) hplaced (by omega)
    have hend : p' + (2 + code₁.length) =
        p' + (.iChoice (2 + code₁.length) :: (code₁ ++ [.iFailTwice])).length := by
      simp only [List.length_cons, List.length_append, List.length_nil]
      omega
    rw [hlength, ← hend]
    obtain ⟨-, -, hstart⟩ | ⟨hstart, -, -⟩ := htest
    · exact hstart
    · have hbody := hx _ _ _ _ _ _ _
        (.choice (p' + (2 + code₁.length)) i capture.length :: stack) capture henv hcode₁
        hplaced'.tail.left trivial (hfits.choice _ i) fun h => absurd h Bool.false_ne_true
      exact hstart.trans (optional_fail hplaced'.head hbody)

theorem shortLen_some {most n : Nat} (h : shortLen fuel rules x most = some (some n)) :
    fixedlen fuel rules x = some (some n) ∧ n ≤ most ∧ hascaptures fuel rules x = some false := by
  simp only [shortLen, Option.bind_eq_bind, Option.bind_eq_some_iff] at h
  obtain ⟨len, hlen, h⟩ := h
  cases len with
  | none => cases h
  | some len =>
    simp only at h
    split at h
    · cases h
    · obtain ⟨captures, hcaptures, h⟩ := Option.bind_eq_some_iff.mp h
      cases captures with
      | true => cases h
      | false =>
        obtain rfl := Option.some.inj (Option.some.inj h)
        exact ⟨hlen, by omega, hcaptures⟩

theorem codeand_some {gen : Gen} (h : codeand gen fuel rules x tt = some part) :
    ∃ code₁, gen rules x false tt fullset = some code₁ ∧
      ((∃ n, shortLen fuel rules x maxBehind = some (some n) ∧
          part = code₁ ++ if n > 0 then [.iBehind n] else []) ∨
        part = .iChoice (2 + code₁.length) :: (code₁ ++ [.iBackCommit 2, .iFail])) := by
  simp only [codeand, Option.bind_eq_bind, Option.bind_eq_some_iff] at h
  obtain ⟨short, hshort, code₁, hcode₁, h⟩ := h
  refine ⟨code₁, hcode₁, ?_⟩
  cases short with
  | none => exact .inr (Option.some.inj h).symm
  | some n => exact .inl ⟨n, hshort, (Option.some.inj h).symm⟩

theorem and_fail_sim (hx : Sim code subject rules x i none) :
    Sim code subject rules (.and x) i none := by
  intro positions fuel opt tt fl part p stack capture henv hgen hplaced htt hfits hopt
  obtain ⟨fuel, rfl⟩ := codegen_pos hgen
  obtain ⟨code₁, hcode₁, ⟨n, hshort, rfl⟩ | rfl⟩ := codeand_some hgen
  · have hbody := hx _ _ _ _ _ _ _ _ _ henv hcode₁ hplaced.left htt hfits
      fun h => absurd h Bool.false_ne_true
    exact hbody
  · have hbody := hx _ _ _ _ _ _ _ (.choice (p + (2 + code₁.length)) i capture.length :: stack)
      capture henv hcode₁ hplaced.tail.left htt (hfits.choice _ i)
        fun h => absurd h Bool.false_ne_true
    have hfail : code[p + (2 + code₁.length)]? = some .iFail := by
      have := hplaced.tail.right.tail.head.plain fun _ h => nomatch h
      rwa [show p + 1 + code₁.length + 1 = p + (2 + code₁.length) by omega] at this
    exact (optional_fail hplaced.head hbody).trans (Meets.of_step (by simp only [turn, hfail]))

theorem and_sim (hmeans : Means subject rules x i (some (j, caps)))
    (hx : Sim code subject rules x i (some (j, caps))) (hformed : x.WellFormed) :
    Sim code subject rules (.and x) i (some (i, [])) := by
  intro positions fuel opt tt fl part p stack capture henv hgen hplaced htt hfits hopt
  obtain ⟨fuel, rfl⟩ := codegen_pos hgen
  refine .inl ?_
  rw [List.append_nil]
  obtain ⟨code₁, hcode₁, ⟨n, hshort, rfl⟩ | rfl⟩ := codeand_some hgen
  · -- back by the length of the match
    obtain ⟨hlen, -, hcaptures⟩ := shortLen_some hshort
    obtain rfl := hmeans.no_captures hcaptures rfl
    have hend := hmeans.fixedlenx henv.formed hformed Known.refl hlen rfl
    have hbody := (hx _ _ _ _ _ _ _ _ _ henv hcode₁ hplaced.left htt hfits
      fun h => absurd h Bool.false_ne_true).run
    rw [List.append_nil] at hbody
    refine hbody.trans ?_
    by_cases hn : n > 0
    · rw [if_pos hn] at hplaced ⊢
      have hbehind : code[p + code₁.length]? = some (.iBehind n) := hplaced.right.head
      refine Meets.of_step ?_
      simp only [turn, hbehind, if_neg (show ¬n > j by omega), Option.some.injEq,
        State.run.injEq, and_true, List.length_append, List.length_singleton]
      omega
    · obtain rfl : j = i := by omega
      rw [if_neg hn, List.append_nil]
      exact Meets.refl
  · -- back to the entry of the stack
    have hbody := (hx _ _ _ _ _ _ _ (.choice (p + (2 + code₁.length)) i capture.length :: stack)
      capture henv hcode₁ hplaced.tail.left htt (hfits.choice _ i)
        fun h => absurd h Bool.false_ne_true).run
    have hcommit : code[p + 1 + code₁.length]? = some (.iBackCommit 2) := hplaced.tail.right.head
    have htarget : target (p + 1 + code₁.length) 2 = p + (.iChoice (2 + code₁.length) ::
        (code₁ ++ [.iBackCommit 2, .iFail])).length := by
      simp only [target, List.length_cons, List.length_append, List.length_nil]
      omega
    refine Meets.head (step_choice hplaced.head) (hbody.trans (Meets.of_step ?_))
    simp only [turn, hcommit, htarget, List.take_left']

theorem Means.closed (h : Means subject rules t i r) {j : Nat} {caps : List Capture}
    (hr : r = some (j, caps)) : caps = [] ∨ ∃ c, caps.getLast? = some c ∧ c.siz ≠ 0 := by
  induction h generalizing j caps with
  | char | set | any => exact .inl (matchChar_eq_some hr).choose_spec.2.2.2
  | true | not | and | rep_stop => exact .inl (Prod.mk.inj (Option.some.inj hr)).2.symm
  | false | seq_fail | seq_break | not_fail | and_fail | behind_short | capture_fail => cases hr
  | rep_more once more ih ih' | seq once more ih ih' =>
    obtain ⟨-, rfl⟩ := Prod.mk.inj (Option.some.inj hr)
    obtain rfl | ⟨c, hc, hsiz⟩ := ih' rfl
    · rw [List.append_nil]
      exact ih rfl
    · exact .inr ⟨c, by rw [List.getLast?_append, hc, Option.some_or], hsiz⟩
  | choice_left left ih | choice_right left right _ ih | call _ body ih | grammar _ body ih
  | behind _ body ih => exact ih hr
  | @capture rules cap key p i j' inner body ih =>
    obtain ⟨-, rfl⟩ := Prod.mk.inj (Option.some.inj hr)
    rw [enclose]
    split
    · exact .inr ⟨_, rfl, Nat.succ_ne_zero _⟩
    · refine .inr ⟨⟨j', 0, cclose, 1⟩, ?_, Nat.one_ne_zero⟩
      rw [← List.cons_append, List.getLast?_concat]

/-- `ICloseCapture` makes a full capture, or closes the one that was opened. -/
theorem closeCapture_enclose {cap key : Nat} {inner capture : List Capture}
    (hclosed : inner = [] ∨ ∃ c, inner.getLast? = some c ∧ c.siz ≠ 0) :
    closeCapture j (capture ++ [⟨i, key, cap, 0⟩] ++ inner) =
      some (capture ++ enclose cap key i j inner) := by
  rw [closeCapture, enclose]
  obtain rfl | ⟨c, hc, hsiz⟩ := hclosed
  · simp only [List.append_nil, List.getLast?_concat, List.dropLast_concat, true_and]
    split <;> simp
  · have hne : inner ≠ [] := by
      rintro rfl
      cases hc
    rw [List.getLast?_append, hc, Option.some_or]
    simp only [hsiz, hne, false_and, if_false]
    simp

theorem codecapture_some {gen : Gen} {cap key : Nat}
    (h : codecapture gen fuel rules cap key x tt fl = some part) :
    ∃ code₁, gen rules x false tt fl = some code₁ ∧
      ((∃ len, shortLen fuel rules x maxOff = some (some len) ∧
          part = code₁ ++ [.iFullCapture cap key len]) ∨
        part = .iOpenCapture cap key :: (code₁ ++ [.iCloseCapture])) := by
  simp only [codecapture, Option.bind_eq_bind, Option.bind_eq_some_iff] at h
  obtain ⟨short, hshort, code₁, hcode₁, h⟩ := h
  refine ⟨code₁, hcode₁, ?_⟩
  cases short with
  | none => exact .inr (Option.some.inj h).symm
  | some len => exact .inl ⟨len, hshort, (Option.some.inj h).symm⟩

theorem capture_fail_sim {cap key : Nat} (hx : Sim code subject rules x i none) :
    Sim code subject rules (.capture cap key x) i none := by
  intro positions fuel opt tt fl part p stack capture henv hgen hplaced htt hfits hopt
  obtain ⟨fuel, rfl⟩ := codegen_pos hgen
  obtain ⟨code₁, hcode₁, ⟨len, hshort, rfl⟩ | rfl⟩ := codecapture_some hgen
  · have hbody := hx _ _ _ _ _ _ _ _ _ henv hcode₁ hplaced.left htt hfits
      fun h => absurd h Bool.false_ne_true
    exact hbody
  · have hopen : code[p]? = some (.iOpenCapture cap key) := hplaced.head
    have hbody := hx _ _ _ _ _ _ _ _ (capture ++ [⟨i, key, cap, 0⟩]) henv hcode₁
      hplaced.tail.left htt (hfits.append _) fun h => absurd h Bool.false_ne_true
    exact Meets.head (by simp only [turn, hopen]) (Meets.trans hbody (fail_captures hfits))

theorem capture_sim {cap key : Nat} (hmeans : Means subject rules x i (some (j, caps)))
    (hx : Sim code subject rules x i (some (j, caps))) (hformed : x.WellFormed) :
    Sim code subject rules (.capture cap key x) i (some (j, enclose cap key i j caps)) := by
  intro positions fuel opt tt fl part p stack capture henv hgen hplaced htt hfits hopt
  obtain ⟨fuel, rfl⟩ := codegen_pos hgen
  obtain ⟨code₁, hcode₁, ⟨len, hshort, rfl⟩ | rfl⟩ := codecapture_some hgen
  · -- a full capture behind the match
    obtain ⟨hlen, hle, hcaptures⟩ := shortLen_some hshort
    obtain rfl := hmeans.no_captures hcaptures rfl
    have hend := hmeans.fixedlenx henv.formed hformed Known.refl hlen rfl
    have hbody := hx _ _ _ _ _ _ _ _ _ henv hcode₁ hplaced.left htt hfits
      fun h => absurd h Bool.false_ne_true
    obtain hrun | hfail := hbody.cases_run
    · have hfull : code[p + code₁.length]? = some (.iFullCapture cap key len) :=
        hplaced.right.head
      have hmost : maxOff = 15 := rfl
      refine .inl (hrun.trans (Meets.of_step ?_))
      rw [enclose, if_pos ⟨rfl, by omega⟩, List.append_nil, List.length_append,
        List.length_singleton, show j - i = len by omega]
      simp only [turn, hfull, show j - len = i by omega, Nat.add_assoc]
    · exact .inr (.inl hfail)
  · -- an open capture, closed behind the match
    have hopen : code[p]? = some (.iOpenCapture cap key) := hplaced.head
    have hstep : turn code subject (.run p i stack capture) =
        some (.run (p + 1) i stack (capture ++ [⟨i, key, cap, 0⟩])) := by
      simp only [turn, hopen]
    have hbody := hx _ _ _ _ _ _ _ _ (capture ++ [⟨i, key, cap, 0⟩]) henv hcode₁
      hplaced.tail.left htt (hfits.append _) fun h => absurd h Bool.false_ne_true
    obtain hrun | ⟨c, hc, hout, hfail⟩ := hbody.cases_run
    · have hclose : code[p + 1 + code₁.length]? = some .iCloseCapture := hplaced.tail.right.head
      refine .inl ((Meets.head hstep hrun).trans (Meets.of_step ?_))
      simp only [turn, hclose, closeCapture_enclose (hmeans.closed rfl), Option.map_some,
        Option.some.injEq, State.run.injEq, and_true, List.length_cons, List.length_append,
        List.length_nil]
      omega
    · exact .inr (.inl ⟨c, hc, hout, (Meets.head hstep hfail).trans (fail_captures hfits)⟩)

theorem codebehind_some {gen : Gen} {n : Nat} (h : codebehind gen rules n x = some part) :
    ∃ code₁, gen rules x false none fullset = some code₁ ∧
      part = (if n > 0 then [.iBehind (n % 256)] else []) ++ code₁ := by
  simp only [codebehind, Option.bind_eq_bind, Option.bind_eq_some_iff] at h
  obtain ⟨code₁, hcode₁, h⟩ := h
  exact ⟨code₁, hcode₁, (Option.some.inj h).symm⟩

theorem behind_short_sim {n : Nat} (hshort : n ≤ maxBehind) (hroom : ¬n ≤ i) :
    Sim code subject rules (.behind n x) i none := by
  intro positions fuel opt tt fl part p stack capture henv hgen hplaced htt hfits hopt
  obtain ⟨fuel, rfl⟩ := codegen_pos hgen
  obtain ⟨code₁, hcode₁, rfl⟩ := codebehind_some hgen
  have hmost : maxBehind = 255 := rfl
  rw [if_pos (by omega), Nat.mod_eq_of_lt (by omega)] at hplaced
  have hbehind : code[p]? = some (.iBehind n) := hplaced.head
  exact Meets.of_step (by simp only [turn, hbehind, if_pos (show n > i by omega)])

theorem behind_sim {n : Nat} (hshort : n ≤ maxBehind) (hroom : n ≤ i)
    (hx : Sim code subject rules x (i - n) r) : Sim code subject rules (.behind n x) i r := by
  intro positions fuel opt tt fl part p stack capture henv hgen hplaced htt hfits hopt
  obtain ⟨fuel, rfl⟩ := codegen_pos hgen
  obtain ⟨code₁, hcode₁, rfl⟩ := codebehind_some hgen
  have hmost : maxBehind = 255 := rfl
  rw [Nat.mod_eq_of_lt (show n < 256 by omega)] at hplaced ⊢
  have hbody := hx _ _ _ _ _ _ _ _ _ henv hcode₁ hplaced.right trivial hfits
    fun h => absurd h Bool.false_ne_true
  refine Arrives.head (hbody.full (by rw [List.length_append, Nat.add_assoc])) ?_
  by_cases hn : n > 0
  · rw [if_pos hn] at hplaced ⊢
    have hbehind : code[p]? = some (.iBehind n) := hplaced.head
    refine Meets.of_step ?_
    simp only [turn, hbehind, if_neg (show ¬n > i by omega), List.length_singleton]
  · rw [if_neg hn, show n = 0 by omega]
    exact Meets.refl

end

end Esp32Project.Lpeg
