import Esp32Project.Lpeg.Simulation

/-!
The code of a grammar, and of the calls of its rules.
-/

set_option autoImplicit false

namespace Esp32Project.Lpeg
open Esp32Project.Lib

section

variable {code part : List Instruction} {subject : List UInt8} {rules : List Tree} {t x y : Tree}
  {i j k : Nat} {r : Option Match} {caps caps' : List Capture} {fuel : Nat} {opt : Bool}
  {tt : Option Instruction} {fl : Charset}

/-- A rule that is called comes back to its caller. -/
theorem rule_returns {positions : List Nat} {p q : Nat} {stack : List Frame}
    {capture : List Capture} (hx : Sim code subject rules x i r) (henv : Env code rules positions)
    (hgen : codegen fuel rules x false none fullset = some part)
    (hplaced : Placed code positions p (part ++ [.iRet])) (hfits : Fits stack capture.length) :
    Arrives code subject (.run p i (.call q :: stack) capture) false fullset stack capture q r := by
  have hbody := hx _ _ _ _ _ _ _ _ _ henv hgen hplaced.left trivial (hfits.call q)
    fun h => absurd h Bool.false_ne_true
  have hret : code[p + part.length]? = some .iRet := hplaced.right.head
  cases r with
  | none => exact Meets.trans hbody (Meets.of_step fail_call)
  | some m => exact .inl (hbody.run.trans (Meets.of_step (by simp only [turn, hret])))

theorem jumps_meets {p q : Nat} {stack : List Frame} {capture : List Capture}
    (h : Jumps code p q) :
    Meets (turn code subject) (.run p i stack capture) (.run q i stack capture) := by
  induction h with
  | here => exact Meets.refl
  | jump found inside rest ih => exact Meets.head (by simp only [turn, found]) ih

theorem meets_return {p q : Nat} {stack : List Frame} {capture : List Capture}
    (hp : code[p]? = some .iRet) (hq : code[q]? = some .iRet) :
    Meets (turn code subject) (.run p i stack capture) (.run q i stack capture) := by
  obtain ⟨next, hnext⟩ : ∃ next, turn code subject (.run p i stack capture) = some next := by
    simp only [turn, hp]
    cases stack with
    | nil => exact ⟨_, rfl⟩
    | cons frame stack => cases frame <;> exact ⟨_, rfl⟩
  have hsame : turn code subject (.run q i stack capture) = some next := by
    rw [← hnext]
    simp only [turn, hp, hq]
  exact (Meets.of_step hnext).trans (Meets.of_step hsame).symm

theorem call_sim {n : Nat} (hrule : rules[n]? = some x) (hx : Sim code subject rules x i r) :
    Sim code subject rules (.call n) i r := by
  intro positions fuel opt tt fl part p stack capture henv hgen hplaced htt hfits hopt
  obtain ⟨fuel, rfl⟩ := codegen_pos hgen
  obtain rfl := Option.some.inj hgen
  obtain ⟨q, fuel', part, hpos, hpart, hbody⟩ := henv.placed n x hrule
  have hlt := (List.getElem?_eq_some_iff.mp hrule).1
  have hsize := henv.size
  have hlinked := hplaced.head
  rw [codecall, Nat.mod_eq_of_lt (by omega)] at hlinked
  have htarget : target p (q - p) = q := by
    simp only [target]
    omega
  refine Arrives.full rfl ?_
  obtain hcall | ⟨hjmp, q', hjumps, hret⟩ := hlinked q hpos
  · have hreturns := rule_returns (q := p + 1) hx henv hpart hbody hfits
    exact hreturns.head (Meets.of_step (by simp only [turn, hcall, htarget]))
  · -- a return follows, so the rule returns in place of the caller
    have hrun := hx _ _ _ _ _ _ _ _ _ henv hpart hbody.left trivial hfits
      fun h => absurd h Bool.false_ne_true
    have hstart : Meets (turn code subject) (.run p i stack capture) (.run q i stack capture) :=
      Meets.of_step (by simp only [turn, hjmp, htarget])
    refine Arrives.head ?_ hstart
    cases r with
    | none => exact hrun
    | some m =>
      have hret' : code[q + part.length]? = some .iRet := hbody.right.head
      exact .inl (hrun.run.trans ((meets_return hret' hret).trans (jumps_meets hjumps).symm))

theorem mapM_getElem? {α β : Type} {f : α → Option β} {xs : List α} {ys : List β} {n : Nat} {a : α}
    (h : xs.mapM f = some ys) (ha : xs[n]? = some a) : ∃ b, ys[n]? = some b ∧ f a = some b := by
  induction xs generalizing ys n with
  | nil => cases ha
  | cons x xs ih =>
    simp only [List.mapM_cons, Option.bind_eq_bind, Option.bind_eq_some_iff] at h
    obtain ⟨y, hy, ys', hys, h⟩ := h
    obtain rfl := Option.some.inj h
    cases n with
    | zero =>
      obtain rfl := Option.some.inj ha
      exact ⟨y, rfl, hy⟩
    | succ n =>
      obtain ⟨b, hb, hfb⟩ := ih hys ha
      exact ⟨b, hb, hfb⟩

theorem codegrammar_some {gen : Gen} (h : codegrammar gen fuel rules = some part) :
    ∃ codes body, (rules.mapM fun rule => gen rules rule false none fullset) = some codes ∧
      correctcalls fuel (rulePositions 0 codes) (codes.flatMap (· ++ [.iRet])) = some body ∧
        part = .iCall 2 :: .iJmp (1 + body.length) :: body := by
  simp only [codegrammar, Option.bind_eq_bind, Option.bind_eq_some_iff] at h
  obtain ⟨codes, hcodes, body, hbody, h⟩ := h
  exact ⟨codes, body, hcodes, hbody, (Option.some.inj h).symm⟩

theorem codegrammar_env {codes : List (List Instruction)} {body : List Instruction} {base : Nat}
    (hsize : rules.length ≤ 256) (hformed : AllFormed rules)
    (hcodes : (rules.mapM fun rule => codegen fuel rules rule false none fullset) = some codes)
    (hbody : correctcalls fuel (rulePositions 0 codes) (codes.flatMap (· ++ [.iRet])) = some body)
    (hwithin : Within code base body) :
    Env code rules ((rulePositions 0 codes).map (base + ·)) := by
  refine ⟨hformed, hsize, fun n rule hrule => ?_⟩
  obtain ⟨c, hc, hgen⟩ := mapM_getElem? hcodes hrule
  obtain ⟨r, hr, hplaced⟩ := correctcalls_placed hc hbody hwithin
  exact ⟨base + r, fuel, c, by rw [List.getElem?_map, hr, Option.map_some], hgen, hplaced⟩

theorem grammar_sim {rules' : List Tree} (hinitial : rules'[0]? = some x)
    (hx : Sim code subject rules' x i r) (hsize : rules'.length ≤ 256)
    (hformed : AllFormed rules') : Sim code subject rules (.grammar rules') i r := by
  intro positions fuel opt tt fl part p stack capture henv hgen hplaced htt hfits hopt
  obtain ⟨fuel, rfl⟩ := codegen_pos hgen
  obtain ⟨codes, body, hcodes, hbody, rfl⟩ := codegrammar_some hgen
  have hwithin : Within code (p + 1 + 1) body := fun k inst hk =>
    (hplaced.tail.tail k inst hk).plain fun n h => correctcalls_closed hbody k n (h ▸ hk)
  have henv' := codegrammar_env hsize hformed hcodes hbody hwithin
  obtain ⟨q, fuel', part, hpos, hpart, hrule⟩ := henv'.placed 0 x hinitial
  obtain rfl : q = p + 2 := by
    cases codes with
    | nil => cases hpos
    | cons first codes => exact (Option.some.inj hpos).symm
  have hcall : code[p]? = some (.iCall 2) := hplaced.head
  have hjmp : code[p + 1]? = some (.iJmp (1 + body.length)) := hplaced.tail.head
  have hreturns := rule_returns (q := p + 1) hx henv' hpart hrule hfits
  have hstart : turn code subject (.run p i stack capture) =
      some (.run (p + 2) i (.call (p + 1) :: stack) capture) := by
    simp only [turn, hcall, target]
    rfl
  have hend : target (p + 1) (1 + body.length) =
      p + (Instruction.iCall 2 :: .iJmp (1 + body.length) :: body).length := by
    simp only [target, List.length_cons]
    omega
  refine Arrives.head ?_ (Meets.of_step hstart)
  cases r with
  | none => exact hreturns
  | some m =>
    refine .inl (hreturns.run.trans (Meets.of_step ?_))
    simp only [turn, hjmp, hend]

end

end Esp32Project.Lpeg
