import Esp32Project.Lpeg.Generated
import Esp32Project.Lpeg.Peephole
import Esp32Project.Lpeg.Stack
import Esp32Project.Lpeg.Totality

/-!
`compile` and `match` together do what a pattern means.
-/

set_option autoImplicit false

namespace Esp32Project.Lpeg
open Esp32Project.Lib

theorem compile_matches {fuel : Nat} {t : Tree} {code : List Instruction}
    (hcompile : compile fuel t = some code) (ht : t.WellFormed) {subject : List UInt8} {init : Nat}
    {r : Option Match} (hmeans : Means subject [] t init r) : Matches code subject init r := by
  simp only [compile, Option.bind_eq_bind, Option.bind_eq_some_iff] at hcompile
  obtain ⟨part, hgen, hpeephole⟩ := hcompile
  exact peephole_matches hpeephole (codegen_matches hgen ht hmeans)

/-- Whatever the limit of the stack, the match of a compiled pattern returns what the pattern means,
and nothing else, if its stack fits, and else it raises the error. -/
theorem compile_correct {fuel : Nat} {t : Tree} {code : List Instruction}
    (hcompile : compile fuel t = some code) (ht : t.WellFormed) {subject : List UInt8} {init : Nat}
    {r : Option Match} (hmeans : Means subject [] t init r) (maxstack : Nat) :
    (∀ r', Returns maxstack code subject init r' ↔
        r' = r ∧ StackFits maxstack code subject init) ∧
      (Overflows maxstack code subject init ↔ ¬StackFits maxstack code subject init) :=
  match_limited (compile_matches hcompile ht hmeans)

/-- The match of a checked pattern never stops but at its end, and gets there from each of its
states: the result that the pattern means if the stack fits, and else the error. -/
theorem checked_match_ends {fuel fuel' : Nat} {t : Tree} {code : List Instruction}
    (hcompile : compile fuel t = some code) (ht : t.Checked 0)
    (hloops : checkloops fuel' [] t = some false) (subject : List UInt8) (init maxstack : Nat) :
    ∃ r, Means subject [] t init r ∧ ∀ state,
      Steps (step maxstack code subject) (.start init) state →
        (StackFits maxstack code subject init →
          ∃ n, Steps (step maxstack code subject) state (.running (.done r) n)) ∧
        (¬StackFits maxstack code subject init →
          Steps (step maxstack code subject) state .overflow) := by
  obtain ⟨r, hmeans⟩ := ht.total hloops subject init
  have hmatch := compile_matches hcompile ht.formed hmeans
  refine ⟨r, hmeans, fun state hreached => ⟨fun hfits => ?_, fun hnot => ?_⟩⟩
  · obtain ⟨n, hreturns⟩ := returns_of_fits hmatch hfits
    exact ⟨n, hreached.onward hreturns rfl⟩
  · exact hreached.onward (overflows_of_not_fits hnot) rfl

/-- A rule that calls itself behind some `b` and an `a`, with a capture around each match. -/
def nestedRule : Tree :=
  .capture 6 0 (.seq (.rep (.char 98)) (.choice (.seq (.char 97) (.call 0)) .true))

theorem nested_verified : verifygrammar 20 [nestedRule] = some (.ok ()) := by
  rfl

theorem nested_checked : (Tree.grammar [nestedRule]).Checked 0 := by
  refine .grammar (by decide) (by decide) nested_verified (fun rule h => ?_) fun rule h => ?_
  · obtain rfl := List.mem_singleton.mp h
    decide
  · obtain rfl := List.mem_singleton.mp h
    exact .capture (.seq (.rep .char) (.choice (.seq .char (.call (by decide))) .true))

theorem nested_means : Means [98, 97] [] (.grammar [nestedRule]) 0
    (some (2, [⟨0, 0, 6, 0⟩, ⟨2, 0, 6, 1⟩, ⟨2, 0, 0, 1⟩])) := by
  have hb : Means [98, 97] [nestedRule] (.char 98) 0 (some (1, [])) := .char
  have hnot (i : Nat) (hi : i = 1 ∨ i = 2) : Means [98, 97] [nestedRule] (.char 98) i none := by
    obtain rfl | rfl := hi <;> exact .char
  have ha : Means [98, 97] [nestedRule] (.char 97) 1 (some (2, [])) := .char
  have hend : Means [98, 97] [nestedRule] (.char 97) 2 none := .char
  have hinner : Means [98, 97] [nestedRule] nestedRule 2 (some (2, [⟨2, 0, 6, 1⟩])) :=
    .capture (.seq (.rep_stop (hnot 2 (.inr rfl))) (.choice_right (.seq_fail hend) .true))
  exact .grammar rfl (.capture (.seq (.rep_more hb (.rep_stop (hnot 1 (.inl rfl))))
    (.choice_left (.seq ha (.call rfl hinner)))))

def nestedCode : List Instruction :=
  [.iCall 2, .iEnd, .iOpenCapture 6 0, .iSpan (setchar emptyset 98), .iTestChar 97 3, .iAny,
    .iCall (-4), .iCloseCapture, .iRet, .iEnd]

theorem nested_compiles : compile 20 (.grammar [nestedRule]) = some nestedCode := by
  decide +kernel

theorem compile_correct_nested :
    (∀ r', Returns 400 nestedCode [98, 97] 0 r' ↔
        r' = some (2, [⟨0, 0, 6, 0⟩, ⟨2, 0, 6, 1⟩, ⟨2, 0, 0, 1⟩]) ∧
          StackFits 400 nestedCode [98, 97] 0) ∧
      (Overflows 400 nestedCode [98, 97] 0 ↔ ¬StackFits 400 nestedCode [98, 97] 0) :=
  compile_correct nested_compiles nested_checked.formed nested_means 400

theorem nested_loops : checkloops 1 [] (.grammar [nestedRule]) = some false := rfl

theorem checked_match_ends_nested :
    ∃ r, Means [98, 97] [] (.grammar [nestedRule]) 0 r ∧ ∀ state,
      Steps (step 400 nestedCode [98, 97]) (.start 0) state →
        (StackFits 400 nestedCode [98, 97] 0 →
          ∃ n, Steps (step 400 nestedCode [98, 97]) state (.running (.done r) n)) ∧
        (¬StackFits 400 nestedCode [98, 97] 0 →
          Steps (step 400 nestedCode [98, 97]) state .overflow) :=
  checked_match_ends nested_compiles nested_checked nested_loops [98, 97] 0 400

end Esp32Project.Lpeg
