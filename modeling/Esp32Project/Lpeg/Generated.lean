import Esp32Project.Lpeg.Choices
import Esp32Project.Lpeg.Predicates
import Esp32Project.Lpeg.Calls

/-!
The generated code of a pattern does what the pattern means.
-/

set_option autoImplicit false

namespace Esp32Project.Lpeg
open Esp32Project.Lib

section

variable {code part : List Instruction} {subject : List UInt8} {rules : List Tree} {t x y : Tree}
  {i j k : Nat} {r : Option Match} {caps caps' : List Capture} {fuel : Nat} {opt : Bool}
  {tt : Option Instruction} {fl : Charset}

/-- The loop of a repetition, besides the code of it. -/
def LoopsOf (code : List Instruction) (subject : List UInt8) (rules : List Tree) (i : Nat) :
    Tree → Option Match → Prop
  | .rep x, some (k, caps) => Loops code subject rules x i k caps
  | _, _ => True

/-- The code of a pattern does what it means. -/
theorem Means.sim (h : Means subject rules t i r) (hrules : AllFormed rules) (ht : t.WellFormed) :
    Sim code subject rules t i r ∧ LoopsOf code subject rules i t r := by
  induction h with
  | char => exact ⟨char_sim, trivial⟩
  | set => exact ⟨set_sim, trivial⟩
  | any => exact ⟨any_sim, trivial⟩
  | true => exact ⟨true_sim, trivial⟩
  | false => exact ⟨false_sim, trivial⟩
  | rep_stop stop ih =>
    cases ht with
    | rep body =>
      have hx := (ih hrules body).1
      exact ⟨rep_stop_sim stop hx, loops_stop hx⟩
  | rep_more once more ih ih' =>
    have hmore := ih' hrules ht
    cases ht with
    | rep body =>
      have hx := (ih hrules body).1
      exact ⟨rep_more_sim once hx hmore.1 hmore.2 body, loops_more hx hmore.2⟩
  | seq_fail first ih =>
    cases ht with
    | seq hp hq => exact ⟨seq_fail_sim (ih hrules hp).1, trivial⟩
  | seq_break first second ih ih' | seq first second ih ih' =>
    cases ht with
    | seq hp hq => exact 
      ⟨seq_sim first (ih hrules hp).1 second (ih' hrules hq).1 hp hq, trivial⟩
  | choice_left left ih =>
    cases ht with
    | choice hp hq => exact ⟨choice_left_sim left (ih hrules hp).1 hp, trivial⟩
  | choice_right left right ih ih' =>
    cases ht with
    | choice hp hq => exact
      ⟨choice_right_sim left (ih hrules hp).1 right (ih' hrules hq).1 hq, trivial⟩
  | not_fail body ih =>
    cases ht with
    | not hp => exact ⟨not_fail_sim body (ih hrules hp).1 hp, trivial⟩
  | not body ih =>
    cases ht with
    | not hp => exact ⟨not_sim body (ih hrules hp).1, trivial⟩
  | and_fail body ih =>
    cases ht with
    | and hp => exact ⟨and_fail_sim (ih hrules hp).1, trivial⟩
  | and body ih =>
    cases ht with
    | and hp => exact ⟨and_sim body (ih hrules hp).1 hp, trivial⟩
  | call rule body ih =>
    exact ⟨call_sim rule (ih hrules (hrules _ (List.mem_of_getElem? rule))).1, trivial⟩
  | grammar initial body ih =>
    cases ht with
    | grammar size all =>
      have hx := (ih all (all _ (List.mem_of_getElem? initial))).1
      exact ⟨grammar_sim initial hx size all, trivial⟩
  | behind_short short =>
    cases ht with
    | behind body hshort fixed => exact ⟨behind_short_sim hshort short, trivial⟩
  | behind room body ih =>
    cases ht with
    | behind hp hshort fixed => exact ⟨behind_sim hshort room (ih hrules hp).1, trivial⟩
  | capture_fail body ih =>
    cases ht with
    | capture hp => exact ⟨capture_fail_sim (ih hrules hp).1, trivial⟩
  | capture body ih =>
    cases ht with
    | capture hp => exact ⟨capture_sim body (ih hrules hp).1 hp, trivial⟩

/-- Before the peephole pass: the code of a pattern, with `IEnd` after it, has its result. -/
theorem codegen_matches (hgen : codegen fuel [] t false none fullset = some part)
    (ht : t.WellFormed) (h : Means subject [] t i r) : Matches (part ++ [.iEnd]) subject i r := by
  have henv : Env (part ++ [.iEnd]) [] [] :=
    ⟨fun p hp => (List.not_mem_nil hp).elim, Nat.zero_le _, fun n p hp => nomatch hp⟩
  have hplaced : Placed (part ++ [.iEnd]) [] 0 part := fun k inst hk => by
    have hcode : (part ++ [Instruction.iEnd])[0 + k]? = some inst := by
      rw [Nat.zero_add, List.getElem?_append_left (List.getElem?_eq_some_iff.mp hk).1, hk]
    cases inst with
    | iOpenCall n => exact fun r hr => nomatch hr
    | _ => exact hcode
  have hend : (part ++ [Instruction.iEnd])[0 + part.length]? = some .iEnd := by
    rw [Nat.zero_add, List.getElem?_concat_length]
  have hsim := (h.sim henv.formed ht).1 _ _ _ _ _ _ _ [] [] henv hgen hplaced trivial
    (fun p s caplevel hmem => nomatch hmem) fun h => nomatch h
  refine Meets.steps ?_ rfl
  cases r with
  | none => exact Meets.trans hsim (Meets.of_step rfl)
  | some m => exact hsim.run.trans (Meets.of_step (by simp only [turn, hend, List.nil_append]))

end

end Esp32Project.Lpeg
