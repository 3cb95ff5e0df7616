import Esp32Project.Lpeg.Analysis
import Esp32Project.Lpeg.Code

/-!
Where the code of a pattern stands in the whole code: as it was generated, with
the open calls changed to calls of the rules, or to jumps where a return follows.
-/

set_option autoImplicit false

namespace Esp32Project.Lpeg

inductive Jumps (code : List Instruction) : Nat → Nat → Prop where
  | here {p : Nat} : Jumps code p p
  | jump {p q : Nat} {offset : Int} (found : code[p]? = some (.iJmp offset))
      (inside : 0 ≤ p + offset) (rest : Jumps code (target p offset) q) : Jumps code p q

def ToRet (code : List Instruction) (p : Nat) : Prop :=
  ∃ q, Jumps code p q ∧ code[q]? = some .iRet

/-- What stands in the code for a generated instruction. -/
def Linked (code : List Instruction) (positions : List Nat) (p : Nat) : Instruction → Prop
  | .iOpenCall n => ∀ r, positions[n]? = some r →
      code[p]? = some (.iCall (r - p)) ∨ (code[p]? = some (.iJmp (r - p)) ∧ ToRet code (p + 1))
  | inst => code[p]? = some inst

/-- The generated code `part` stands at a place of the code. -/
def Placed (code : List Instruction) (positions : List Nat) (p : Nat)
    (part : List Instruction) : Prop :=
  ∀ k inst, part[k]? = some inst → Linked code positions (p + k) inst

section

variable {code part part' : List Instruction} {positions : List Nat} {p : Nat} {inst : Instruction}

theorem Placed.left (h : Placed code positions p (part ++ part')) : Placed code positions p part :=
  fun k inst hk => h k inst (by
    rw [List.getElem?_append_left (List.getElem?_eq_some_iff.mp hk).1, hk])

theorem Placed.right (h : Placed code positions p (part ++ part')) :
    Placed code positions (p + part.length) part' := fun k inst hk => by
  have hlinked := h (part.length + k) inst (by
    rw [List.getElem?_append_right (Nat.le_add_right _ _), Nat.add_sub_cancel_left, hk])
  rwa [← Nat.add_assoc] at hlinked

theorem Placed.head (h : Placed code positions p (inst :: part)) : Linked code positions p inst :=
  h 0 inst rfl

theorem Placed.tail (h : Placed code positions p (inst :: part)) :
    Placed code positions (p + 1) part := fun k inst' hk => by
  have hlinked := h (k + 1) inst' (by rw [List.getElem?_cons_succ, hk])
  rwa [Nat.add_comm k 1, ← Nat.add_assoc] at hlinked

theorem Linked.plain (h : Linked code positions p inst) (hopen : ∀ n, inst ≠ .iOpenCall n) :
    code[p]? = some inst := by
  cases inst with
  | iOpenCall n => exact absurd rfl (hopen n)
  | _ => exact h

theorem finaltarget_jumps {fuel p q : Nat} (h : finaltarget fuel code p = some q) :
    Jumps code p q := by
  induction fuel generalizing p with
  | zero => cases h
  | succ fuel ih =>
    rw [finaltarget] at h
    split at h
    · cases h
    · rename_i offset hjmp
      by_cases hinside : 0 ≤ p + offset
      · rw [if_pos hinside] at h
        exact .jump hjmp hinside (ih h)
      · rw [if_neg hinside] at h
        cases h
    · obtain rfl := Option.some.inj h
      exact .here

theorem Jumps.set {p q i : Nat} {inst : Instruction} (h : Jumps code p q)
    (hi : ∀ offset, code[i]? ≠ some (.iJmp offset)) : Jumps (code.set i inst) p q := by
  induction h with
  | here => exact .here
  | jump found inside rest ih =>
    refine .jump ?_ inside ih
    rw [List.getElem?_set_ne, found]
    rintro rfl
    exact hi _ found

theorem ToRet.set {p i : Nat} {inst : Instruction} {n : Nat} (h : ToRet code p)
    (hi : code[i]? = some (.iOpenCall n)) : ToRet (code.set i inst) p := by
  obtain ⟨q, hjumps, hret⟩ := h
  refine ⟨q, hjumps.set fun offset hjmp => ?_, ?_⟩
  · rw [hi] at hjmp
    cases hjmp
  · rw [List.getElem?_set_ne, hret]
    rintro rfl
    rw [hi] at hret
    cases hret

/-- Where the loop of `correctcalls` stands: the code before `i` is linked. -/
structure Corrected (positions : List Nat) (body code : List Instruction) (i : Nat) : Prop where
  length : code.length = body.length
  linked : ∀ k inst, k < i → body[k]? = some inst → Linked code positions k inst
  closed : ∀ k n, k < i → code[k]? ≠ some (.iOpenCall n)
  rest : ∀ k, i ≤ k → code[k]? = body[k]?

theorem Corrected.next {body code' : List Instruction} {fuel i : Nat}
    (h : Corrected positions body code i) (hi : i < body.length)
    (hstep : correctcall fuel positions code i = some code') :
    Corrected positions body code' (i + 1) := by
  have hbody := h.rest i (Nat.le_refl i)
  have hlinked (hsame : code' = code) (hopen : ∀ n, code[i]? ≠ some (.iOpenCall n)) :
      Corrected positions body code' (i + 1) := by
    subst hsame
    refine ⟨h.length, fun k inst hk hinst => ?_, fun k n hk => ?_,
      fun k hk => h.rest k (Nat.le_of_succ_le hk)⟩
    · obtain hlt | rfl := Nat.lt_succ_iff_lt_or_eq.mp hk
      · exact h.linked k inst hlt hinst
      · rw [← hbody] at hinst
        cases inst with
        | iOpenCall n => exact absurd hinst (hopen n)
        | _ => exact hinst
    · obtain hlt | rfl := Nat.lt_succ_iff_lt_or_eq.mp hk
      · exact h.closed k n hlt
      · exact hopen n
  rw [correctcall] at hstep
  split at hstep
  · rename_i n hopen
    simp only [Option.bind_eq_bind, Option.bind_eq_some_iff] at hstep
    obtain ⟨rule, hrule, next, hnext, hcode⟩ := hstep
    obtain rfl := Option.some.inj hcode
    refine ⟨by rw [List.length_set, h.length], fun k inst hk hinst => ?_, fun k n hk => ?_,
      fun k hk => ?_⟩
    · obtain hlt | rfl := Nat.lt_succ_iff_lt_or_eq.mp hk
      · have hold := h.linked k inst hlt hinst
        cases inst with
        | iOpenCall m =>
          intro r hr
          obtain hcall | ⟨hjmp, hret⟩ := hold r hr
          · exact .inl (by rw [List.getElem?_set_ne (Nat.ne_of_gt hlt), hcall])
          · exact .inr ⟨by rw [List.getElem?_set_ne (Nat.ne_of_gt hlt), hjmp], hret.set hopen⟩
        | _ =>
          simp only [Linked] at hold ⊢
          rw [List.getElem?_set_ne (Nat.ne_of_gt hlt), hold]
      · rw [hbody, hinst] at hopen
        obtain rfl := Option.some.inj hopen
        intro r hr
        obtain rfl := Option.some.inj (hrule.symm.trans hr)
        rw [List.getElem?_set_self (by rw [h.length]; exact hi)]
        by_cases hret : code[next]? = some .iRet
        · rw [if_pos hret]
          have hto : ToRet code (k + 1) := ⟨next, finaltarget_jumps hnext, hret⟩
          exact .inr ⟨rfl, hto.set (hbody.trans hinst)⟩
        · rw [if_neg hret]
          exact .inl rfl
    · obtain hlt | rfl := Nat.lt_succ_iff_lt_or_eq.mp hk
      · rw [List.getElem?_set_ne (Nat.ne_of_gt hlt)]
        exact h.closed k n hlt
      · rw [List.getElem?_set_self (by rw [h.length]; exact hi)]
        split <;> exact fun heq => nomatch heq
    · rw [List.getElem?_set_ne (by omega), h.rest k (by omega)]
  · rename_i hopen
    exact hlinked (Option.some.inj hstep).symm hopen

theorem correctcalls_corrected {body : List Instruction} {fuel n : Nat} (hn : n ≤ body.length)
    (h : (List.range n).foldlM (correctcall fuel positions) body = some code) :
    Corrected positions body code n := by
  induction n generalizing code with
  | zero =>
    obtain rfl := Option.some.inj h
    exact ⟨rfl, fun k inst hk => absurd hk (Nat.not_lt_zero k),
      fun k n hk => absurd hk (Nat.not_lt_zero k), fun k _ => rfl⟩
  | succ n ih =>
    rw [List.range_succ, List.foldlM_append] at h
    simp only [Option.bind_eq_bind, Option.bind_eq_some_iff, List.foldlM_cons, List.foldlM_nil] at h
    obtain ⟨code', hcode', code'', hstep, hpure⟩ := h
    obtain rfl := Option.some.inj hpure
    exact (ih (Nat.le_of_succ_le hn) hcode').next hn hstep

theorem rulePositions_split {codes : List (List Instruction)} {c : List Instruction} (here : Nat)
    {n : Nat} (h : codes[n]? = some c) : ∃ before after,
      codes.flatMap (· ++ [.iRet]) = before ++ ((c ++ [.iRet]) ++ after) ∧
        (rulePositions here codes)[n]? = some (here + before.length) := by
  induction codes generalizing here n with
  | nil => cases h
  | cons first codes ih =>
    cases n with
    | zero =>
      obtain rfl := Option.some.inj h
      exact ⟨[], _, rfl, rfl⟩
    | succ n =>
      obtain ⟨before, after, hsplit, hpos⟩ := ih (here + first.length + 1) h
      refine ⟨first ++ [.iRet] ++ before, after, ?_, ?_⟩
      · rw [List.flatMap_cons, hsplit, List.append_assoc (first ++ [Instruction.iRet])]
      · rw [rulePositions, List.getElem?_cons_succ, hpos, List.length_append, List.length_append,
          List.length_singleton]
        congr 1
        omega

theorem correctcalls_closed {body : List Instruction} {fuel : Nat}
    (h : correctcalls fuel positions body = some code) (k n : Nat) :
    code[k]? ≠ some (.iOpenCall n) := fun hopen => by
  have hcorrected := correctcalls_corrected (Nat.le_refl _) h
  have hk := (List.getElem?_eq_some_iff.mp hopen).1
  rw [hcorrected.length] at hk
  exact hcorrected.closed k n hk hopen

def Within (code : List Instruction) (base : Nat) (part : List Instruction) : Prop :=
  ∀ (k : Nat) (inst : Instruction), part[k]? = some inst → code[base + k]? = some inst

theorem Jumps.within {base p q : Nat} (hpart : Within code base part) (h : Jumps part p q) :
    Jumps code (base + p) (base + q) := by
  induction h with
  | here => exact .here
  | @jump p q offset found inside rest ih =>
    refine .jump (hpart p _ found) (by omega) ?_
    have htarget : target (base + p) offset = base + target p offset := by
      simp only [target]
      omega
    rwa [htarget]

theorem Linked.within {base k : Nat} (hpart : Within code base part)
    (h : Linked part positions k inst) :
    Linked code (positions.map (base + ·)) (base + k) inst := by
  cases inst with
  | iOpenCall n =>
    intro r hr
    rw [List.getElem?_map, Option.map_eq_some_iff] at hr
    obtain ⟨r, hr, rfl⟩ := hr
    have hoffset : ((base + r : Nat) : Int) - ((base + k : Nat) : Int) = r - k := by omega
    rw [hoffset]
    obtain hcall | ⟨hjmp, q, hjumps, hret⟩ := h r hr
    · exact .inl (hpart k _ hcall)
    · exact .inr ⟨hpart k _ hjmp, base + q, hjumps.within hpart, hpart q _ hret⟩
  | _ => exact hpart k _ h

/-- Every rule of a grammar stands at its position in the whole code, with its calls linked. -/
theorem correctcalls_placed {codes : List (List Instruction)} {c : List Instruction}
    {fuel base n : Nat} (hc : codes[n]? = some c)
    (h : correctcalls fuel (rulePositions 0 codes) (codes.flatMap (· ++ [.iRet])) = some part)
    (hpart : Within code base part) : ∃ r, (rulePositions 0 codes)[n]? = some r ∧
      Placed code ((rulePositions 0 codes).map (base + ·)) (base + r) (c ++ [.iRet]) := by
  obtain ⟨before, after, hsplit, hpos⟩ := rulePositions_split 0 hc
  rw [Nat.zero_add] at hpos
  refine ⟨before.length, hpos, fun k inst hk => ?_⟩
  have hcorrected := correctcalls_corrected (Nat.le_refl _) h
  have hk' := (List.getElem?_eq_some_iff.mp hk).1
  have hbody : (codes.flatMap (· ++ [.iRet]))[before.length + k]? = some inst := by
    rw [hsplit, List.getElem?_append_right (Nat.le_add_right _ _), Nat.add_sub_cancel_left,
      List.getElem?_append_left hk', hk]
  have hlinked := hcorrected.linked _ inst (List.getElem?_eq_some_iff.mp hbody).1 hbody
  rw [Nat.add_assoc]
  exact hlinked.within hpart

end

end Esp32Project.Lpeg
