import Esp32Project.Lpeg.Linking

/-!
The peephole pass keeps the results of the code. While the old code still goes
through jumps, the new code waits at the instruction that they lead to, or at
the one that has taken the place of the first of them.
-/

set_option autoImplicit false

namespace Esp32Project.Lpeg
open Esp32Project.Lib

/-- Instructions after which the next one is never run, besides jumps. -/
def Instruction.ends : Instruction → Bool
  | .iRet | .iFail | .iFailTwice | .iEnd => true
  | _ => false

/-- Instructions that take an entry from the stack and jump. -/
def Instruction.commits : Instruction → Bool
  | .iCommit _ | .iPartialCommit _ | .iBackCommit _ => true
  | _ => false

/-- What the pass makes of the instruction at `i`; the code there now does what stands at `ft`. -/
inductive Peeped (code : List Instruction) (i : Nat) : Nat → List Instruction → Prop where
  | same : Peeped code i i code
  | label {inst : Instruction} {offset : Int} {final : Nat} (found : code[i]? = some inst)
      (label : inst.label = some offset) (jumps : Jumps code (target i offset) final) :
      Peeped code i i (code.set i (inst.relabel (final - i)))
  | jump {ft : Nat} (inside : i < code.length) (jumps : Jumps code i ft) (apart : ft ≠ i) :
      Peeped code i ft (code.set i (.iJmp (ft - i)))
  | ends {ft : Nat} {inst : Instruction} (inside : i < code.length) (jumps : Jumps code i ft)
      (found : code[ft]? = some inst) (ends : inst.ends = true) :
      Peeped code i ft (code.set i inst)
  | commits {ft fft : Nat} {inst : Instruction} {offset : Int} (inside : i < code.length)
      (jumps : Jumps code i ft) (found : code[ft]? = some inst) (commits : inst.commits = true)
      (label : inst.label = some offset) (jumps' : Jumps code (target ft offset) fft) :
      Peeped code i ft (code.set i (inst.relabel (fft - i)))

/-- The old code at `p` jumps to what the new code at `q` does. -/
def Ahead (code : List Instruction) (i ft p q : Nat) : Prop :=
  Jumps code p (if q = i then ft else q)

inductive FrameAhead (ahead : Nat → Nat → Prop) : Frame → Frame → Prop where
  | choice {p q s caplevel : Nat} (next : ahead p q) :
      FrameAhead ahead (.choice p s caplevel) (.choice q s caplevel)
  | call {p q : Nat} (next : ahead p q) : FrameAhead ahead (.call p) (.call q)

inductive StateAhead (ahead : Nat → Nat → Prop) : State → State → Prop where
  | run {p q s : Nat} {stack stack' : List Frame} {capture : List Capture} (next : ahead p q)
      (frames : List.Forall₂ (FrameAhead ahead) stack stack') :
      StateAhead ahead (.run p s stack capture) (.run q s stack' capture)
  | fail {stack stack' : List Frame} {capture : List Capture}
      (frames : List.Forall₂ (FrameAhead ahead) stack stack') :
      StateAhead ahead (.fail stack capture) (.fail stack' capture)
  | done {r : Option Match} : StateAhead ahead (.done r) (.done r)

section

variable {code code' : List Instruction} {subject : List UInt8} {ahead : Nat → Nat → Prop}
  {p q i ft s fuel : Nat} {inst : Instruction} {stack stack' : List Frame} {capture : List Capture}
  {r : Option Match}

theorem Jumps.trans {m : Nat} (h : Jumps code p q) (h' : Jumps code q m) : Jumps code p m := by
  induction h with
  | here => exact h'
  | jump found inside rest ih => exact .jump found inside (ih h')

theorem step_fail_ahead (hframes : List.Forall₂ (FrameAhead ahead) stack stack') :
    Option.Rel (StateAhead ahead) (turn code subject (.fail stack capture))
      (turn code' subject (.fail stack' capture)) := by
  cases hframes with
  | nil => exact .some .done
  | cons hframe hrest =>
    cases hframe with
    | choice next => exact .some (.run next hrest)
    | call next => exact .some (.fail hrest)

theorem step_ends_ahead (hinst : code[p]? = some inst) (hinst' : code'[q]? = some inst)
    (hends : inst.ends = true) (hframes : List.Forall₂ (FrameAhead ahead) stack stack') :
    Option.Rel (StateAhead ahead) (turn code subject (.run p s stack capture))
      (turn code' subject (.run q s stack' capture)) := by
  cases inst with
  | iRet =>
    simp only [turn, hinst, hinst']
    cases hframes with
    | nil => exact .some .done
    | cons hframe hrest =>
      cases hframe with
      | choice next | call next => exact .some (.run next hrest)
  | iFail =>
    simp only [turn, hinst, hinst']
    exact .some (.fail hframes)
  | iFailTwice =>
    simp only [turn, hinst, hinst']
    cases hframes with
    | nil => exact .none
    | cons hframe hrest => exact .some (.fail hrest)
  | iEnd =>
    simp only [turn, hinst, hinst']
    exact .some .done
  | _ => cases hends

theorem step_label_ahead {offset offset' : Int} (hinst : code[p]? = some inst)
    (hinst' : code'[q]? = some (inst.relabel offset')) (hlabel : inst.label = some offset)
    (htarget : ahead (target p offset) (target q offset'))
    (hnext : inst.commits = true ∨ ahead (p + 1) (q + 1))
    (hframes : List.Forall₂ (FrameAhead ahead) stack stack') :
    Option.Rel (StateAhead ahead) (turn code subject (.run p s stack capture))
      (turn code' subject (.run q s stack' capture)) := by
  cases inst with
  | iTestAny o | iTestChar _ o | iTestSet _ o =>
    obtain rfl := Option.some.inj hlabel
    have hnext := hnext.resolve_left (fun h => nomatch h)
    simp only [turn, hinst, hinst', Instruction.relabel]
    split
    · exact .some (.run hnext hframes)
    · exact .some (.run htarget hframes)
  | iChoice o =>
    obtain rfl := Option.some.inj hlabel
    simp only [turn, hinst, hinst', Instruction.relabel]
    exact .some (.run (hnext.resolve_left (fun h => nomatch h)) (.cons (.choice htarget) hframes))
  | iCall o =>
    obtain rfl := Option.some.inj hlabel
    have hnext := hnext.resolve_left (fun h => nomatch h)
    simp only [turn, hinst, hinst', Instruction.relabel]
    exact .some (.run htarget (.cons (.call hnext) hframes))
  | iCommit o | iPartialCommit o | iBackCommit o =>
    obtain rfl := Option.some.inj hlabel
    simp only [turn, hinst, hinst', Instruction.relabel]
    cases hframes with
    | nil => exact .none
    | cons hframe hrest =>
      cases hframe with
      | call next => exact .none
      | choice next =>
        first
        | exact .some (.run htarget hrest)
        | exact .some (.run htarget (.cons (.choice next) hrest))
  | _ => cases hlabel

theorem step_same_ahead (hahead : ∀ p, ahead p p) (hcode : code'[p]? = code[p]?)
    (hframes : List.Forall₂ (FrameAhead ahead) stack stack') :
    Option.Rel (StateAhead ahead) (turn code subject (.run p s stack capture))
      (turn code' subject (.run p s stack' capture)) := by
  cases hinst : code[p]? with
  | none =>
    rw [hinst] at hcode
    simp only [turn, hinst, hcode]
    exact .none
  | some inst =>
    rw [hinst] at hcode
    cases inst with
    | iRet | iFail | iFailTwice | iEnd => exact step_ends_ahead hinst hcode rfl hframes
    | iTestAny o | iTestChar _ o | iTestSet _ o | iChoice o | iCall o | iCommit o
    | iPartialCommit o | iBackCommit o =>
      exact step_label_ahead hinst hcode rfl (hahead _) (.inr (hahead _)) hframes
    | iAny | iChar _ | iSet _ | iBehind _ =>
      simp only [turn, hinst, hcode]
      split <;> first | exact .some (.run (hahead _) hframes) | exact .some (.fail hframes)
    | iSpan _ | iJmp _ | iFullCapture _ _ _ | iOpenCapture _ _ =>
      simp only [turn, hinst, hcode]
      exact .some (.run (hahead _) hframes)
    | iOpenCall _ =>
      simp only [turn, hinst, hcode]
      exact .none
    | iCloseCapture =>
      simp only [turn, hinst, hcode]
      cases closeCapture s capture with
      | none => exact .none
      | some capture' => exact .some (.run (hahead _) hframes)

theorem finaltarget_found {n : Nat} (h : finaltarget fuel code p = some n) :
    ∃ inst, code[n]? = some inst ∧ ∀ offset, inst ≠ .iJmp offset := by
  induction fuel generalizing p with
  | zero => cases h
  | succ fuel ih =>
    rw [finaltarget] at h
    split at h
    · cases h
    · split at h
      · exact ih h
      · cases h
    · rename_i inst hplain hinst
      obtain rfl := Option.some.inj h
      exact ⟨inst, hinst, hplain⟩

theorem optimizeLabel_peeped (h : optimizeLabel fuel code i = some code') :
    Peeped code i i code' := by
  rw [optimizeLabel] at h
  split at h
  · rename_i inst hinst
    split at h
    · rename_i offset hlabel
      simp only [Option.bind_eq_bind, Option.bind_eq_some_iff] at h
      obtain ⟨final, hfinal, h⟩ := h
      obtain rfl := Option.some.inj h
      exact .label hinst hlabel (finaltarget_jumps hfinal)
    · obtain rfl := Option.some.inj h
      exact .same
  · obtain rfl := Option.some.inj h
    exact .same

theorem finaltarget_plain {n : Nat} (hinst : code[p]? = some inst)
    (hplain : ∀ offset, inst ≠ .iJmp offset) (h : finaltarget fuel code p = some n) : n = p := by
  cases fuel with
  | zero => cases h
  | succ fuel =>
    rw [finaltarget, hinst] at h
    cases inst with
    | iJmp offset => exact absurd rfl (hplain offset)
    | _ => exact (Option.some.inj h).symm

theorem relabel_self {offset : Int} (h : inst.label = some offset) :
    inst.relabel offset = inst := by
  cases inst with
  | iTestAny o | iTestChar _ o | iTestSet _ o | iChoice o | iCall o | iCommit o
  | iPartialCommit o | iBackCommit o => rw [Option.some.inj h, Instruction.relabel]
  | _ => rfl

/-- The label of a jump that has become a commit is final already. -/
theorem optimizeLabel_again {ft fft : Nat} {offset : Int} (hinside : i < code.length)
    (hfft : finaltarget fuel code (target ft offset) = some fft)
    (hlabel : inst.label = some (fft - i : Int))
    (h : optimizeLabel fuel (code.set i inst) i = some code') : code' = code.set i inst := by
  have hset : (code.set i inst)[i]? = some inst := List.getElem?_set_self hinside
  have hplain (offset : Int) : inst ≠ .iJmp offset := by
    rintro rfl
    cases hlabel
  have htarget : target i (fft - i) = fft := by
    simp only [target]
    omega
  rw [optimizeLabel, hset] at h
  simp only [hlabel, htarget, Option.bind_eq_bind, Option.bind_eq_some_iff] at h
  obtain ⟨final, hfinal, h⟩ := h
  obtain rfl : final = fft := by
    obtain ⟨next, hnext, hplain'⟩ := finaltarget_found hfft
    by_cases hsame : i = fft
    · exact finaltarget_plain (hsame ▸ hset) hplain hfinal
    · exact finaltarget_plain ((List.getElem?_set_ne hsame).trans hnext) hplain' hfinal
  rw [← Option.some.inj h, relabel_self hlabel, List.set_set]

theorem optimizeJump_peeped {offset : Int} (hjmp : code[i]? = some (.iJmp offset))
    (h : optimizeJump fuel code i = some code') : ∃ ft, Peeped code i ft code' := by
  have hinside := (List.getElem?_eq_some_iff.mp hjmp).1
  simp only [optimizeJump, Option.bind_eq_bind, Option.bind_eq_some_iff] at h
  obtain ⟨ft, hft, h⟩ := h
  have hjumps := finaltarget_jumps hft
  refine ⟨ft, ?_⟩
  split at h
  case h_1 hfound | h_2 hfound | h_3 hfound | h_4 hfound =>
    obtain rfl := Option.some.inj h
    exact .ends hinside hjumps hfound rfl
  case h_5 offset' hfound | h_6 offset' hfound | h_7 offset' hfound =>
    obtain ⟨fft, hfft, h⟩ := Option.bind_eq_some_iff.mp h
    rw [optimizeLabel_again hinside hfft rfl h]
    exact .commits hinside hjumps hfound rfl rfl (finaltarget_jumps hfft)
  case h_8 =>
    obtain rfl := Option.some.inj h
    refine .jump hinside hjumps ?_
    rintro rfl
    obtain ⟨inst, hinst, hplain⟩ := finaltarget_found hft
    rw [hjmp] at hinst
    exact hplain offset (Option.some.inj hinst).symm

theorem peepholeAt_peeped (h : peepholeAt fuel code i = some code') :
    ∃ ft, Peeped code i ft code' := by
  rw [peepholeAt] at h
  split at h
  · rename_i offset hjmp
    exact optimizeJump_peeped hjmp h
  · exact ⟨i, optimizeLabel_peeped h⟩

theorem Peeped.jumps (h : Peeped code i ft code') : Jumps code i ft := by
  cases h with
  | same | label => exact .here
  | jump _ hjumps | ends _ hjumps | commits _ hjumps => exact hjumps

theorem Peeped.leads (h : Peeped code i ft code') (hjumps : Jumps code p q) :
    Ahead code i ft p q := by
  rw [Ahead]
  split
  · rename_i heq
    exact hjumps.trans (heq ▸ h.jumps)
  · exact hjumps

theorem Peeped.elsewhere (h : Peeped code i ft code') (hne : p ≠ i) : code'[p]? = code[p]? := by
  cases h with
  | same => rfl
  | label | jump | ends | commits => exact List.getElem?_set_ne (Ne.symm hne)

theorem target_sub {m : Nat} : target i (m - i) = m := by
  simp only [target]
  omega

theorem Peeped.step_here (h : Peeped code i ft code') (subject : List UInt8)
    (hframes : List.Forall₂ (FrameAhead (Ahead code i ft)) stack stack') :
    ∃ b, Steps (turn code' subject) (.run q s stack' capture) b ∧
      Option.Rel (StateAhead (Ahead code i ft))
        (turn code subject (.run (if q = i then ft else q) s stack capture))
        (turn code' subject b) := by
  have hrefl (p : Nat) : Ahead code i ft p p := h.leads .here
  by_cases hq : q = i
  · subst hq
    rw [if_pos rfl]
    have hleads {p q' : Nat} (hjumps : Jumps code p q') : Ahead code q ft p q' := h.leads hjumps
    cases h with
    | same => exact ⟨_, .refl, step_same_ahead hrefl rfl hframes⟩
    | label found label jumps =>
      have hinside := (List.getElem?_eq_some_iff.mp found).1
      refine ⟨_, .refl, step_label_ahead found (List.getElem?_set_self hinside) label ?_
        (.inr (hrefl _)) hframes⟩
      rw [target_sub]
      exact hleads jumps
    | jump inside jumps apart =>
      have hset : (code.set q (.iJmp (ft - q)))[q]? = some (.iJmp (ft - q)) :=
        List.getElem?_set_self inside
      refine ⟨.run ft s stack' capture, .single ?_,
        step_same_ahead hrefl (List.getElem?_set_ne (Ne.symm apart)) hframes⟩
      simp only [turn, hset, target_sub]
    | ends inside jumps found ends =>
      exact ⟨_, .refl, step_ends_ahead found (List.getElem?_set_self inside) ends hframes⟩
    | commits inside jumps found commits label jumps' =>
      refine ⟨_, .refl, step_label_ahead found (List.getElem?_set_self inside) label ?_
        (.inl commits) hframes⟩
      rw [target_sub]
      exact hleads jumps'
  · rw [if_neg hq]
    exact ⟨_, .refl, step_same_ahead hrefl (h.elsewhere hq) hframes⟩

/-- The new code answers each step of the old code. -/
theorem Peeped.follows (h : Peeped code i ft code') (subject : List UInt8) {a a' b : State}
    (hab : StateAhead (Ahead code i ft) a b) (hstep : turn code subject a = some a') :
    ∃ b', Steps (turn code' subject) b b' ∧ StateAhead (Ahead code i ft) a' b' := by
  have answer {o : Option State} (hrel : Option.Rel (StateAhead (Ahead code i ft)) (some a') o) :
      ∃ b', o = some b' ∧ StateAhead (Ahead code i ft) a' b' := by
    cases hrel with
    | some hrel => exact ⟨_, rfl, hrel⟩
  cases hab with
  | done => cases hstep
  | @fail stack stack' capture hframes =>
    have hrel : Option.Rel _ (turn code subject (.fail stack capture))
      (turn code' subject (.fail stack' capture)) := step_fail_ahead hframes
    rw [hstep] at hrel
    obtain ⟨b', hb', hrel⟩ := answer hrel
    exact ⟨b', .single hb', hrel⟩
  | @run p q s stack stack' capture next hframes =>
    cases next with
    | here =>
      obtain ⟨b, hb, hrel⟩ := h.step_here subject hframes
      rw [hstep] at hrel
      obtain ⟨b', hb', hrel⟩ := answer hrel
      exact ⟨b', hb.tail hb', hrel⟩
    | jump found inside rest =>
      simp only [turn, found, Option.some.injEq] at hstep
      subst hstep
      exact ⟨_, .refl, .run rest hframes⟩

theorem Peeped.matches (h : Peeped code i ft code') {init : Nat}
    (hmatch : Matches code subject init r) : Matches code' subject init r := by
  have hstart : StateAhead (Ahead code i ft) (.run 0 init [] []) (.run 0 init [] []) :=
    .run (h.leads .here) .nil
  obtain ⟨d, hd, hrel⟩ := Steps.follows hmatch hstart fun a a' b => h.follows subject
  cases hrel with
  | done => exact hd

theorem peephole_matches (h : peephole fuel code = some code') {init : Nat}
    (hmatch : Matches code subject init r) : Matches code' subject init r := by
  rw [peephole] at h
  generalize List.range code.length = order at h
  induction order generalizing code with
  | nil =>
    obtain rfl := Option.some.inj h
    exact hmatch
  | cons i order ih =>
    simp only [List.foldlM_cons, Option.bind_eq_bind, Option.bind_eq_some_iff] at h
    obtain ⟨next, hnext, h⟩ := h
    obtain ⟨ft, hpeeped⟩ := peepholeAt_peeped hnext
    exact ih (hpeeped.matches hmatch) h

end

end Esp32Project.Lpeg
