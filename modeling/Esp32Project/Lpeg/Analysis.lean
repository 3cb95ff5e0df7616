import Esp32Project.Lpeg.Meaning

/-!
What the analyses promise of the meaning of a pattern.
-/

set_option autoImplicit false

namespace Esp32Project.Lpeg

section

variable {subject : List UInt8} {rules : List Tree} {t : Tree} {i : Nat} {r : Option Match}

theorem matchChar_eq_some {member : UInt8 → Bool} {j : Nat} {caps : List Capture}
    (h : matchChar subject i member = some (j, caps)) :
    ∃ c, subject[i]? = some c ∧ member c = true ∧ j = i + 1 ∧ caps = [] := by
  rw [matchChar] at h
  cases hc : subject[i]? with
  | none =>
    rw [hc] at h
    cases h
  | some c =>
    rw [hc] at h
    by_cases hmember : member c = true
    · simp only [hmember, if_true, Option.some.injEq, Prod.mk.injEq] at h
      exact ⟨c, rfl, hmember, h.1.symm, h.2.symm⟩
    · simp only [hmember, Bool.false_eq_true, if_false, reduceCtorEq] at h

theorem matchChar_none {member : UInt8 → Bool} (h : subject[i]? = none) :
    matchChar subject i member = none := by
  rw [matchChar, h]

theorem matchChar_some {member : UInt8 → Bool} {c : UInt8} (h : subject[i]? = some c) :
    matchChar subject i member = if member c then some (i + 1, []) else none := by
  rw [matchChar, h]

/-- The rules that an analysis knows are among those of the match. -/
def Known (known rules : List Tree) : Prop :=
  ∀ (n : Nat) (p : Tree), known[n]? = some p → rules[n]? = some p

theorem Known.refl : Known rules rules := fun _ _ h => h

theorem Known.nil : Known [] rules := fun _ _ h => by cases h

/-- The rules of the grammar and the pattern are well formed. -/
def AllFormed (rules : List Tree) : Prop := ∀ p ∈ rules, p.WellFormed

section

variable {known : List Tree} {fuel count len m : Nat} {p q : Tree}

theorem fixedlenx_pos {m : Option Nat} (h : fixedlenx fuel known t count len = some m) :
    ∃ fuel', fuel = fuel' + 1 := by
  cases fuel with
  | zero => cases h
  | succ fuel => exact ⟨fuel, rfl⟩

theorem fixedlenx_seq (h : fixedlenx (fuel + 1) known (.seq p q) count len = some (some m)) :
    ∃ l, fixedlenx fuel known p count len = some (some l) ∧
      fixedlenx fuel known q count l = some (some m) := by
  simp only [fixedlenx, Option.bind_eq_bind, Option.bind_eq_some_iff] at h
  obtain ⟨l, hl, h⟩ := h
  cases l with
  | none => cases h
  | some l => exact ⟨l, hl, h⟩

theorem fixedlenx_choice (h : fixedlenx (fuel + 1) known (.choice p q) count len = some (some m)) :
    fixedlenx fuel known p count len = some (some m) ∧
      fixedlenx fuel known q count len = some (some m) := by
  simp only [fixedlenx, Option.bind_eq_bind, Option.bind_eq_some_iff] at h
  obtain ⟨l, hl, h⟩ := h
  cases l with
  | none => cases h
  | some l =>
    simp only [Option.bind_eq_some_iff] at h
    obtain ⟨l', hl', h⟩ := h
    by_cases heq : some l = l'
    · subst heq
      simp only [if_true, Option.pure_def, Option.some.injEq] at h
      subst h
      exact ⟨hl, hl'⟩
    · simp only [if_neg heq, Option.pure_def, Option.some.injEq, reduceCtorEq] at h

theorem fixedlenx_call {n : Nat}
    (h : fixedlenx (fuel + 1) known (.call n) count len = some (some m)) :
    ∃ p, known[n]? = some p ∧ fixedlenx fuel known p (count + 1) len = some (some m) := by
  simp only [fixedlenx] at h
  split at h
  · cases h
  · simpa only [Option.bind_eq_bind, Option.bind_eq_some_iff] using h

theorem fixedlenx_grammar {rules' : List Tree}
    (h : fixedlenx (fuel + 1) known (.grammar rules') count len = some (some m)) :
    ∃ p, rules'[0]? = some p ∧ fixedlenx fuel rules' p count len = some (some m) := by
  simpa only [fixedlenx, Option.bind_eq_bind, Option.bind_eq_some_iff] using h

end

theorem Means.fixedlenx (h : Means subject rules t i r) (hrules : AllFormed rules)
    (ht : t.WellFormed) {known : List Tree} {fuel count len m j : Nat} {caps : List Capture}
    (hknown : Known known rules) (hfixed : fixedlenx fuel known t count len = some (some m))
    (hr : r = some (j, caps)) : j + len = i + m := by
  induction h generalizing known fuel count len m j caps with
  | char | set | any =>
    obtain ⟨fuel, rfl⟩ := fixedlenx_pos hfixed
    obtain ⟨c, -, -, rfl, -⟩ := matchChar_eq_some hr
    simp only [Lpeg.fixedlenx, Option.some.injEq] at hfixed
    omega
  | true | not | and =>
    obtain ⟨fuel, rfl⟩ := fixedlenx_pos hfixed
    simp only [Lpeg.fixedlenx, Option.some.injEq, Prod.mk.injEq] at hfixed hr
    omega
  | false | seq_fail | seq_break | not_fail | and_fail | behind_short | capture_fail => cases hr
  | rep_stop | rep_more =>
    obtain ⟨fuel, rfl⟩ := fixedlenx_pos hfixed
    simp [Lpeg.fixedlenx] at hfixed
  | seq first second ih ih' =>
    obtain ⟨fuel, rfl⟩ := fixedlenx_pos hfixed
    cases ht with
    | seq hp hq =>
      obtain ⟨l, hl, hfixed⟩ := fixedlenx_seq hfixed
      have hfirst := ih hrules hp hknown hl rfl
      have hsecond := ih' hrules hq hknown hfixed rfl
      have := (Prod.mk.inj (Option.some.inj hr)).1
      omega
  | choice_left left ih =>
    obtain ⟨fuel, rfl⟩ := fixedlenx_pos hfixed
    cases ht with
    | choice hp hq => exact ih hrules hp hknown (fixedlenx_choice hfixed).1 hr
  | choice_right left right ih ih' =>
    obtain ⟨fuel, rfl⟩ := fixedlenx_pos hfixed
    cases ht with
    | choice hp hq => exact ih' hrules hq hknown (fixedlenx_choice hfixed).2 hr
  | call rule body ih =>
    obtain ⟨fuel, rfl⟩ := fixedlenx_pos hfixed
    obtain ⟨p, hp, hfixed⟩ := fixedlenx_call hfixed
    obtain rfl := Option.some.inj (rule.symm.trans (hknown _ _ hp))
    exact ih hrules (hrules _ (List.mem_of_getElem? rule)) hknown hfixed hr
  | grammar initial body ih =>
    obtain ⟨fuel, rfl⟩ := fixedlenx_pos hfixed
    obtain ⟨p, hp, hfixed⟩ := fixedlenx_grammar hfixed
    obtain rfl := Option.some.inj (initial.symm.trans hp)
    cases ht with
    | grammar size all =>
      exact ih all (all _ (List.mem_of_getElem? initial)) Known.refl hfixed hr
  | behind room body ih =>
    obtain ⟨fuel, rfl⟩ := fixedlenx_pos hfixed
    cases ht with
    | behind hp short fixed =>
      have hback := ih hrules hp Known.nil fixed hr
      simp only [Lpeg.fixedlenx, Option.some.injEq] at hfixed
      omega
  | capture body ih =>
    obtain ⟨fuel, rfl⟩ := fixedlenx_pos hfixed
    cases ht with
    | capture hp =>
      have hbody := ih hrules hp hknown hfixed rfl
      have := (Prod.mk.inj (Option.some.inj hr)).1
      omega

theorem Means.behind_eq {n fuel j : Nat} {p : Tree} {caps : List Capture}
    (h : Means subject rules p (i - n) (some (j, caps))) (hrules : AllFormed rules)
    (hp : p.WellFormed) (room : n ≤ i) (fixed : fixedlen fuel [] p = some (some n)) : j = i := by
  have hback := h.fixedlenx hrules hp Known.nil fixed rfl
  omega

theorem Means.le (h : Means subject rules t i r) (hrules : AllFormed rules) (ht : t.WellFormed)
    {j : Nat} {caps : List Capture} (hr : r = some (j, caps)) : i ≤ j := by
  induction h generalizing j caps with
  | char | set | any =>
    obtain ⟨c, -, -, rfl, -⟩ := matchChar_eq_some hr
    exact Nat.le_succ _
  | true | not | and | rep_stop => exact Nat.le_of_eq (Prod.mk.inj (Option.some.inj hr)).1
  | false | seq_fail | seq_break | not_fail | and_fail | behind_short | capture_fail => cases hr
  | rep_more once more ih ih' =>
    cases ht with
    | rep hp =>
      obtain ⟨rfl, -⟩ := Prod.mk.inj (Option.some.inj hr)
      exact Nat.le_trans (ih hrules hp rfl) (ih' hrules (.rep hp) rfl)
  | seq first second ih ih' =>
    cases ht with
    | seq hp hq =>
      obtain ⟨rfl, -⟩ := Prod.mk.inj (Option.some.inj hr)
      exact Nat.le_trans (ih hrules hp rfl) (ih' hrules hq rfl)
  | choice_left left ih =>
    cases ht with
    | choice hp hq => exact ih hrules hp hr
  | choice_right left right ih ih' =>
    cases ht with
    | choice hp hq => exact ih' hrules hq hr
  | call rule body ih => exact ih hrules (hrules _ (List.mem_of_getElem? rule)) hr
  | grammar initial body ih =>
    cases ht with
    | grammar size all => exact ih all (all _ (List.mem_of_getElem? initial)) hr
  | behind room body ih =>
    subst hr
    cases ht with
    | behind hp short fixed => exact Nat.le_of_eq (body.behind_eq hrules hp room fixed).symm
  | capture body ih =>
    cases ht with
    | capture hp =>
      obtain ⟨rfl, -⟩ := Prod.mk.inj (Option.some.inj hr)
      exact ih hrules hp rfl

theorem Means.stays (h : Means subject rules t i r) (hrules : AllFormed rules) (ht : t.WellFormed)
    (hend : subject[i]? = none) {j : Nat} {caps : List Capture} (hr : r = some (j, caps)) :
    j = i := by
  induction h generalizing j caps with
  | char | set | any =>
    rw [matchChar_none hend] at hr
    cases hr
  | true | not | and | rep_stop => exact (Prod.mk.inj (Option.some.inj hr)).1.symm
  | false | seq_fail | seq_break | not_fail | and_fail | behind_short | capture_fail => cases hr
  | rep_more once more ih ih' =>
    cases ht with
    | rep hp =>
      obtain ⟨rfl, -⟩ := Prod.mk.inj (Option.some.inj hr)
      obtain rfl := ih hrules hp hend rfl
      exact ih' hrules (.rep hp) hend rfl
  | seq first second ih ih' =>
    cases ht with
    | seq hp hq =>
      obtain ⟨rfl, -⟩ := Prod.mk.inj (Option.some.inj hr)
      obtain rfl := ih hrules hp hend rfl
      exact ih' hrules hq hend rfl
  | choice_left left ih =>
    cases ht with
    | choice hp hq => exact ih hrules hp hend hr
  | choice_right left right ih ih' =>
    cases ht with
    | choice hp hq => exact ih' hrules hq hend hr
  | call rule body ih => exact ih hrules (hrules _ (List.mem_of_getElem? rule)) hend hr
  | grammar initial body ih =>
    cases ht with
    | grammar size all => exact ih all (all _ (List.mem_of_getElem? initial)) hend hr
  | behind room body ih =>
    subst hr
    cases ht with
    | behind hp short fixed => exact body.behind_eq hrules hp room fixed
  | capture body ih =>
    cases ht with
    | capture hp =>
      obtain ⟨rfl, -⟩ := Prod.mk.inj (Option.some.inj hr)
      exact ih hrules hp hend rfl

section

variable {fuel : Nat} {pred : Pred} {b : Bool} {p q : Tree}

theorem checkaux_pos (h : checkaux fuel rules pred t = some b) : ∃ fuel', fuel = fuel' + 1 := by
  cases fuel with
  | zero => cases h
  | succ fuel => exact ⟨fuel, rfl⟩

theorem checkaux_seq (h : checkaux (fuel + 1) rules pred (.seq p q) = some b) :
    (checkaux fuel rules pred p = some false ∧ b = false) ∨
      (checkaux fuel rules pred p = some true ∧ checkaux fuel rules pred q = some b) := by
  simp only [checkaux, Option.bind_eq_bind, Option.bind_eq_some_iff] at h
  obtain ⟨first, hfirst, h⟩ := h
  cases first with
  | false => exact .inl ⟨hfirst, (Option.some.inj h).symm⟩
  | true => exact .inr ⟨hfirst, h⟩

theorem checkaux_choice (h : checkaux (fuel + 1) rules pred (.choice p q) = some b) :
    (checkaux fuel rules pred q = some true ∧ b = true) ∨
      (checkaux fuel rules pred q = some false ∧ checkaux fuel rules pred p = some b) := by
  simp only [checkaux, Option.bind_eq_bind, Option.bind_eq_some_iff] at h
  obtain ⟨second, hsecond, h⟩ := h
  cases second with
  | true => exact .inl ⟨hsecond, (Option.some.inj h).symm⟩
  | false => exact .inr ⟨hsecond, h⟩

theorem checkaux_call {n : Nat} (h : checkaux (fuel + 1) rules pred (.call n) = some b) :
    ∃ p, rules[n]? = some p ∧ checkaux fuel rules pred p = some b := by
  simpa only [checkaux, Option.bind_eq_bind, Option.bind_eq_some_iff] using h

theorem checkaux_grammar {rules' : List Tree}
    (h : checkaux (fuel + 1) rules pred (.grammar rules') = some b) :
    ∃ p, rules'[0]? = some p ∧ checkaux fuel rules' pred p = some b := by
  simpa only [checkaux, Option.bind_eq_bind, Option.bind_eq_some_iff] using h

end

theorem Means.lt (h : Means subject rules t i r) (hrules : AllFormed rules) (ht : t.WellFormed)
    {fuel j : Nat} {caps : List Capture} (hnull : nullable fuel rules t = some Bool.false)
    (hr : r = some (j, caps)) : i < j := by
  obtain ⟨fuel, rfl⟩ := checkaux_pos hnull
  induction h generalizing fuel j caps with
  | char | set | any =>
    obtain ⟨c, -, -, rfl, -⟩ := matchChar_eq_some hr
    exact Nat.lt_succ_self _
  | true | not | and | rep_stop | rep_more | behind => simp [nullable, checkaux] at hnull
  | false | seq_fail | seq_break | not_fail | and_fail | behind_short | capture_fail => cases hr
  | seq first second ih ih' =>
    cases ht with
    | seq hp hq =>
      obtain ⟨rfl, -⟩ := Prod.mk.inj (Option.some.inj hr)
      obtain ⟨hnull, -⟩ | ⟨-, hnull⟩ := checkaux_seq hnull
      · obtain ⟨fuel, rfl⟩ := checkaux_pos hnull
        exact Nat.lt_of_lt_of_le (ih hrules hp rfl _ hnull) (second.le hrules hq rfl)
      · obtain ⟨fuel, rfl⟩ := checkaux_pos hnull
        exact Nat.lt_of_le_of_lt (first.le hrules hp rfl) (ih' hrules hq rfl _ hnull)
  | choice_left left ih =>
    cases ht with
    | choice hp hq =>
      obtain ⟨-, hcontra⟩ | ⟨-, hnull⟩ := checkaux_choice hnull
      · cases hcontra
      · obtain ⟨fuel, rfl⟩ := checkaux_pos hnull
        exact ih hrules hp hr _ hnull
  | choice_right left right ih ih' =>
    cases ht with
    | choice hp hq =>
      obtain ⟨-, hcontra⟩ | ⟨hnull, -⟩ := checkaux_choice hnull
      · cases hcontra
      · obtain ⟨fuel, rfl⟩ := checkaux_pos hnull
        exact ih' hrules hq hr _ hnull
  | call rule body ih =>
    obtain ⟨p, hp, hnull⟩ := checkaux_call hnull
    obtain rfl := Option.some.inj (rule.symm.trans hp)
    obtain ⟨fuel, rfl⟩ := checkaux_pos hnull
    exact ih hrules (hrules _ (List.mem_of_getElem? rule)) hr _ hnull
  | grammar initial body ih =>
    obtain ⟨p, hp, hnull⟩ := checkaux_grammar hnull
    obtain rfl := Option.some.inj (initial.symm.trans hp)
    obtain ⟨fuel, rfl⟩ := checkaux_pos hnull
    cases ht with
    | grammar size all => exact ih all (all _ (List.mem_of_getElem? initial)) hr _ hnull
  | capture body ih =>
    simp only [nullable, checkaux] at hnull
    obtain ⟨fuel, rfl⟩ := checkaux_pos hnull
    cases ht with
    | capture hp =>
      obtain ⟨rfl, -⟩ := Prod.mk.inj (Option.some.inj hr)
      exact ih hrules hp rfl _ hnull

theorem Means.found (h : Means subject rules t i r) {fuel : Nat}
    (hnofail : nofail fuel rules t = some Bool.true) : r ≠ none := by
  obtain ⟨fuel, rfl⟩ := checkaux_pos hnofail
  induction h generalizing fuel with
  | char | set | any | false | not_fail | behind_short | not | behind =>
    simp [nofail, checkaux] at hnofail
  | true | rep_stop | rep_more | seq | choice_left | and | capture => exact Option.some_ne_none _
  | seq_fail first ih =>
    obtain ⟨-, hcontra⟩ | ⟨hnofail, -⟩ := checkaux_seq hnofail
    · cases hcontra
    · obtain ⟨fuel, rfl⟩ := checkaux_pos hnofail
      exact ih _ hnofail
  | seq_break first second ih ih' =>
    obtain ⟨-, hcontra⟩ | ⟨-, hnofail⟩ := checkaux_seq hnofail
    · cases hcontra
    · obtain ⟨fuel, rfl⟩ := checkaux_pos hnofail
      exact ih' _ hnofail
  | choice_right left right ih ih' =>
    obtain ⟨hnofail, -⟩ | ⟨-, hnofail⟩ := checkaux_choice hnofail
    · obtain ⟨fuel, rfl⟩ := checkaux_pos hnofail
      exact ih' _ hnofail
    · obtain ⟨fuel, rfl⟩ := checkaux_pos hnofail
      exact absurd rfl (ih _ hnofail)
  | and_fail body ih =>
    simp only [nofail, checkaux, reduceCtorEq, if_false] at hnofail
    obtain ⟨fuel, rfl⟩ := checkaux_pos hnofail
    exact ih _ hnofail
  | call rule body ih =>
    obtain ⟨p, hp, hnofail⟩ := checkaux_call hnofail
    obtain rfl := Option.some.inj (rule.symm.trans hp)
    obtain ⟨fuel, rfl⟩ := checkaux_pos hnofail
    exact ih _ hnofail
  | grammar initial body ih =>
    obtain ⟨p, hp, hnofail⟩ := checkaux_grammar hnofail
    obtain rfl := Option.some.inj (initial.symm.trans hp)
    obtain ⟨fuel, rfl⟩ := checkaux_pos hnofail
    exact ih _ hnofail
  | capture_fail body ih =>
    simp only [nofail, checkaux] at hnofail
    obtain ⟨fuel, rfl⟩ := checkaux_pos hnofail
    exact ih _ hnofail

theorem anyM_false {check : Tree → Option Bool} {l : List Tree} (h : l.anyM check = some false) :
    ∀ p ∈ l, check p = some false := by
  induction l with
  | nil => exact fun p hp => nomatch hp
  | cons q l ih =>
    simp only [List.anyM, Option.bind_eq_bind, Option.bind_eq_some_iff] at h
    obtain ⟨first, hfirst, h⟩ := h
    cases first with
    | true => cases h
    | false =>
      intro p hp
      obtain rfl | hp := List.mem_cons.mp hp
      · exact hfirst
      · exact ih h p hp

section

variable {fuel : Nat} {p q : Tree}

theorem hascaptures_pos {b : Bool} (h : hascaptures fuel rules t = some b) :
    ∃ fuel', fuel = fuel' + 1 := by
  cases fuel with
  | zero => cases h
  | succ fuel => exact ⟨fuel, rfl⟩

theorem hascaptures_pair {check : Tree → Option Bool}
    (h : (check p).bind (fun b => if b = true then some true else check q) = some false) :
    check p = some false ∧ check q = some false := by
  obtain ⟨first, hfirst, h⟩ := Option.bind_eq_some_iff.mp h
  cases first with
  | true => cases h
  | false => exact ⟨hfirst, h⟩

end

theorem Means.no_captures (h : Means subject rules t i r) {fuel j : Nat} {caps : List Capture}
    (hcaptures : hascaptures fuel rules t = some Bool.false) (hr : r = some (j, caps)) :
    caps = [] := by
  obtain ⟨fuel, rfl⟩ := hascaptures_pos hcaptures
  induction h generalizing fuel j caps with
  | char | set | any => exact (matchChar_eq_some hr).choose_spec.2.2.2
  | true | not | and | rep_stop => exact (Prod.mk.inj (Option.some.inj hr)).2.symm
  | false | seq_fail | seq_break | not_fail | and_fail | behind_short | capture_fail => cases hr
  | rep_more once more ih ih' =>
    obtain ⟨-, rfl⟩ := Prod.mk.inj (Option.some.inj hr)
    have hbody := hcaptures
    simp only [hascaptures] at hbody
    obtain ⟨fuel', rfl⟩ := hascaptures_pos hbody
    rw [ih rfl _ hbody, ih' rfl _ hcaptures, List.append_nil]
  | seq first second ih ih' =>
    obtain ⟨-, rfl⟩ := Prod.mk.inj (Option.some.inj hr)
    obtain ⟨hp, hq⟩ := hascaptures_pair hcaptures
    obtain ⟨fuel, rfl⟩ := hascaptures_pos hp
    rw [ih rfl _ hp, ih' rfl _ hq, List.append_nil]
  | choice_left left ih =>
    obtain ⟨hp, -⟩ := hascaptures_pair hcaptures
    obtain ⟨fuel, rfl⟩ := hascaptures_pos hp
    exact ih hr _ hp
  | choice_right left right ih ih' =>
    obtain ⟨hp, hq⟩ := hascaptures_pair hcaptures
    obtain ⟨fuel, rfl⟩ := hascaptures_pos hp
    exact ih' hr _ hq
  | call rule body ih =>
    simp only [hascaptures] at hcaptures
    have hmem := List.mem_of_getElem? (by rw [List.getElem?_drop, Nat.add_zero, rule])
    have hp := anyM_false hcaptures _ hmem
    obtain ⟨fuel, rfl⟩ := hascaptures_pos hp
    exact ih hr _ hp
  | grammar initial body ih =>
    simp only [hascaptures] at hcaptures
    have hp := anyM_false hcaptures _ (List.mem_of_getElem? initial)
    obtain ⟨fuel, rfl⟩ := hascaptures_pos hp
    exact ih hr _ hp
  | behind room body ih =>
    simp only [hascaptures] at hcaptures
    obtain ⟨fuel, rfl⟩ := hascaptures_pos hcaptures
    exact ih hr _ hcaptures
  | capture body ih => simp [hascaptures] at hcaptures

section

variable {fuel : Nat} {p q : Tree} {follow first : Charset} {e : Bool}

theorem getfirst_pos {found : Charset × Bool} (h : getfirst fuel rules t follow = some found) :
    ∃ fuel', fuel = fuel' + 1 := by
  cases fuel with
  | zero => cases h
  | succ fuel => exact ⟨fuel, rfl⟩

theorem getfirst_choice (h : getfirst (fuel + 1) rules (.choice p q) follow = some (first, e)) :
    ∃ first₁ e₁ first₂ e₂, getfirst fuel rules p follow = some (first₁, e₁) ∧
      getfirst fuel rules q follow = some (first₂, e₂) ∧ first = csUnion first₁ first₂ ∧
      e = (e₁ || e₂) := by
  simp only [getfirst, Option.bind_eq_bind, Option.bind_eq_some_iff] at h
  obtain ⟨⟨first₁, e₁⟩, h₁, ⟨first₂, e₂⟩, h₂, h⟩ := h
  obtain ⟨rfl, rfl⟩ := Prod.mk.inj (Option.some.inj h)
  exact ⟨first₁, e₁, first₂, e₂, h₁, h₂, rfl, rfl⟩

theorem getfirst_seq (h : getfirst (fuel + 1) rules (.seq p q) follow = some (first, e)) :
    (nullable fuel rules p = some false ∧ getfirst fuel rules p fullset = some (first, e)) ∨
      ∃ csaux e₁ e₂, getfirst fuel rules q follow = some (csaux, e₂) ∧
        getfirst fuel rules p csaux = some (first, e₁) ∧ e = if e₁ then e₂ else false := by
  simp only [getfirst, Option.bind_eq_bind, Option.bind_eq_some_iff] at h
  obtain ⟨null, hnull, h⟩ := h
  cases null with
  | false => exact .inl ⟨hnull, h⟩
  | true =>
    simp only [if_true, Option.bind_eq_some_iff] at h
    obtain ⟨⟨csaux, e₂⟩, h₂, ⟨first₁, e₁⟩, h₁, h⟩ := h
    obtain ⟨rfl, rfl⟩ := Prod.mk.inj (Option.some.inj h)
    exact .inr ⟨csaux, e₁, e₂, h₂, h₁, rfl⟩

theorem getfirst_rep (h : getfirst (fuel + 1) rules (.rep p) follow = some (first, e)) :
    ∃ first₁ e₁, getfirst fuel rules p follow = some (first₁, e₁) ∧
      first = csUnion first₁ follow ∧ e = true := by
  simp only [getfirst, Option.bind_eq_bind, Option.bind_eq_some_iff] at h
  obtain ⟨⟨first₁, e₁⟩, h₁, h⟩ := h
  obtain ⟨rfl, rfl⟩ := Prod.mk.inj (Option.some.inj h)
  exact ⟨first₁, e₁, h₁, rfl, rfl⟩

theorem getfirst_and (h : getfirst (fuel + 1) rules (.and p) follow = some (first, e)) :
    ∃ first₁, getfirst fuel rules p follow = some (first₁, e) ∧ first = csInter first₁ follow := by
  simp only [getfirst, Option.bind_eq_bind, Option.bind_eq_some_iff] at h
  obtain ⟨⟨first₁, e₁⟩, h₁, h⟩ := h
  obtain ⟨rfl, rfl⟩ := Prod.mk.inj (Option.some.inj h)
  exact ⟨first₁, h₁, rfl⟩

theorem getfirst_not (h : getfirst (fuel + 1) rules (.not p) follow = some (first, e)) :
    e = true ∧ ((∃ st, toCharset p = some st ∧ first = csComplement st) ∨
      (toCharset p = none ∧ first = follow)) := by
  simp only [getfirst] at h
  cases hset : toCharset p with
  | some st =>
    rw [hset] at h
    obtain ⟨rfl, rfl⟩ := Prod.mk.inj (Option.some.inj h)
    exact ⟨rfl, .inl ⟨st, rfl, rfl⟩⟩
  | none =>
    simp only [hset, Option.bind_eq_bind, Option.bind_eq_some_iff] at h
    obtain ⟨-, -, h⟩ := h
    obtain ⟨rfl, rfl⟩ := Prod.mk.inj (Option.some.inj h)
    exact ⟨rfl, .inr ⟨rfl, rfl⟩⟩

theorem getfirst_behind {n : Nat}
    (h : getfirst (fuel + 1) rules (.behind n p) follow = some (first, e)) :
    first = follow ∧ e = true := by
  simp only [getfirst, Option.bind_eq_bind, Option.bind_eq_some_iff] at h
  obtain ⟨-, -, h⟩ := h
  obtain ⟨rfl, rfl⟩ := Prod.mk.inj (Option.some.inj h)
  exact ⟨rfl, rfl⟩

theorem getfirst_call {n : Nat}
    (h : getfirst (fuel + 1) rules (.call n) follow = some (first, e)) :
    ∃ p, rules[n]? = some p ∧ getfirst fuel rules p follow = some (first, e) := by
  simpa only [getfirst, Option.bind_eq_bind, Option.bind_eq_some_iff] using h

theorem getfirst_grammar {rules' : List Tree}
    (h : getfirst (fuel + 1) rules (.grammar rules') follow = some (first, e)) :
    ∃ p, rules'[0]? = some p ∧ getfirst fuel rules' p follow = some (first, e) := by
  simpa only [getfirst, Option.bind_eq_bind, Option.bind_eq_some_iff] using h

theorem Means.of_charset {st : Charset} (h : Means subject rules t i r)
    (hset : toCharset t = some st) : r = matchChar subject i (testchar st) := by
  cases h with
  | char | set | any =>
    obtain rfl := Option.some.inj hset
    simp [matchChar]
  | _ => cases hset

end

/-- Before a character outside of the first set there is no match, or an empty one before a
character outside of the follow set. -/
theorem Means.excluded (h : Means subject rules t i r) (hrules : AllFormed rules)
    (ht : t.WellFormed) {fuel j : Nat} {follow first : Charset} {e : Bool} {caps : List Capture}
    {c : UInt8} (hfirst : getfirst fuel rules t follow = some (first, e))
    (hc : subject[i]? = some c) (hout : testchar first c = Bool.false) (hr : r = some (j, caps)) :
    j = i ∧ testchar follow c = Bool.false := by
  obtain ⟨fuel, rfl⟩ := getfirst_pos hfirst
  induction h generalizing fuel follow first e j caps with
  | char | set | any =>
    obtain ⟨c', hc', hmember, -, -⟩ := matchChar_eq_some hr
    obtain rfl := Option.some.inj (hc.symm.trans hc')
    obtain ⟨rfl, -⟩ := Prod.mk.inj (Option.some.inj hfirst)
    simp_all
  | true =>
    obtain ⟨rfl, -⟩ := Prod.mk.inj (Option.some.inj hfirst)
    exact ⟨(Prod.mk.inj (Option.some.inj hr)).1.symm, hout⟩
  | false | seq_fail | seq_break | not_fail | and_fail | behind_short | capture_fail => cases hr
  | rep_stop stop ih =>
    obtain ⟨first₁, e₁, -, rfl, -⟩ := getfirst_rep hfirst
    simp only [testchar_union, Bool.or_eq_false_iff] at hout
    exact ⟨(Prod.mk.inj (Option.some.inj hr)).1.symm, hout.2⟩
  | rep_more once more ih ih' =>
    cases ht with
    | rep hp =>
      obtain ⟨rfl, -⟩ := Prod.mk.inj (Option.some.inj hr)
      obtain ⟨first₁, e₁, hbody, rfl, -⟩ := getfirst_rep hfirst
      obtain ⟨fuel', rfl⟩ := getfirst_pos hbody
      have hout' := hout
      simp only [testchar_union, Bool.or_eq_false_iff] at hout'
      obtain ⟨rfl, -⟩ := ih hrules hp hc hout'.1 rfl _ hbody
      exact ih' hrules (.rep hp) hc hout rfl _ hfirst
  | seq first second ih ih' =>
    cases ht with
    | seq hp hq =>
      obtain ⟨rfl, -⟩ := Prod.mk.inj (Option.some.inj hr)
      obtain ⟨-, hbody⟩ | ⟨csaux, e₁, e₂, hrest, hbody, -⟩ := getfirst_seq hfirst
      · obtain ⟨fuel', rfl⟩ := getfirst_pos hbody
        have hfull := (ih hrules hp hc hout rfl _ hbody).2
        rw [testchar_full] at hfull
        cases hfull
      · obtain ⟨fuel', rfl⟩ := getfirst_pos hbody
        obtain ⟨rfl, hnext⟩ := ih hrules hp hc hout rfl _ hbody
        exact ih' hrules hq hc hnext rfl _ hrest
  | choice_left left ih =>
    cases ht with
    | choice hp hq =>
      obtain ⟨first₁, e₁, first₂, e₂, h₁, h₂, rfl, -⟩ := getfirst_choice hfirst
      simp only [testchar_union, Bool.or_eq_false_iff] at hout
      obtain ⟨fuel', rfl⟩ := getfirst_pos h₁
      exact ih hrules hp hc hout.1 hr _ h₁
  | choice_right left right ih ih' =>
    cases ht with
    | choice hp hq =>
      obtain ⟨first₁, e₁, first₂, e₂, h₁, h₂, rfl, -⟩ := getfirst_choice hfirst
      simp only [testchar_union, Bool.or_eq_false_iff] at hout
      obtain ⟨fuel', rfl⟩ := getfirst_pos h₂
      exact ih' hrules hq hc hout.2 hr _ h₂
  | not body ih =>
    refine ⟨(Prod.mk.inj (Option.some.inj hr)).1.symm, ?_⟩
    obtain ⟨-, ⟨st, hset, rfl⟩ | ⟨-, rfl⟩⟩ := getfirst_not hfirst
    · have hnone := body.of_charset hset
      simp only [testchar_complement, Bool.not_eq_false'] at hout
      rw [matchChar_some hc, hout] at hnone
      cases hnone
    · exact hout
  | and body ih =>
    cases ht with
    | and hp =>
      obtain ⟨first₁, hbody, rfl⟩ := getfirst_and hfirst
      refine ⟨(Prod.mk.inj (Option.some.inj hr)).1.symm, ?_⟩
      simp only [testchar_inter, Bool.and_eq_false_iff] at hout
      obtain hout | hout := hout
      · obtain ⟨fuel', rfl⟩ := getfirst_pos hbody
        exact (ih hrules hp hc hout rfl _ hbody).2
      · exact hout
  | call rule body ih =>
    obtain ⟨p, hp, hfirst⟩ := getfirst_call hfirst
    obtain rfl := Option.some.inj (rule.symm.trans hp)
    obtain ⟨fuel', rfl⟩ := getfirst_pos hfirst
    exact ih hrules (hrules _ (List.mem_of_getElem? rule)) hc hout hr _ hfirst
  | grammar initial body ih =>
    obtain ⟨p, hp, hfirst⟩ := getfirst_grammar hfirst
    obtain rfl := Option.some.inj (initial.symm.trans hp)
    obtain ⟨fuel', rfl⟩ := getfirst_pos hfirst
    cases ht with
    | grammar size all => exact ih all (all _ (List.mem_of_getElem? initial)) hc hout hr _ hfirst
  | behind room body ih =>
    subst hr
    obtain ⟨rfl, -⟩ := getfirst_behind hfirst
    cases ht with
    | behind hp short fixed => exact ⟨body.behind_eq hrules hp room fixed, hout⟩
  | capture body ih =>
    simp only [getfirst] at hfirst
    obtain ⟨fuel', rfl⟩ := getfirst_pos hfirst
    cases ht with
    | capture hp =>
      obtain ⟨rfl, -⟩ := Prod.mk.inj (Option.some.inj hr)
      exact ih hrules hp hc hout rfl _ hfirst

theorem Means.fails_at_end (h : Means subject rules t i r) (hrules : AllFormed rules)
    (ht : t.WellFormed) {fuel : Nat} {follow first : Charset}
    (hfirst : getfirst fuel rules t follow = some (first, Bool.false))
    (hend : subject[i]? = none) : r = none := by
  obtain ⟨fuel, rfl⟩ := getfirst_pos hfirst
  induction h generalizing fuel follow first with
  | char | set | any => exact matchChar_none hend
  | true => cases (Prod.mk.inj (Option.some.inj hfirst)).2
  | false | seq_fail | seq_break | not_fail | and_fail | behind_short | capture_fail => rfl
  | rep_stop | rep_more =>
    obtain ⟨-, -, -, -, hcontra⟩ := getfirst_rep hfirst
    cases hcontra
  | seq once second ih ih' =>
    cases ht with
    | seq hp hq =>
      obtain ⟨-, hbody⟩ | ⟨csaux, e₁, e₂, hrest, hbody, he⟩ := getfirst_seq hfirst
      · obtain ⟨fuel', rfl⟩ := getfirst_pos hbody
        cases ih hrules hp hend _ hbody
      · obtain ⟨fuel', rfl⟩ := getfirst_pos hbody
        cases e₁ with
        | false => cases ih hrules hp hend _ hbody
        | true =>
          obtain rfl := once.stays hrules hp hend rfl
          rw [if_pos rfl] at he
          subst he
          cases ih' hrules hq hend _ hrest
  | choice_left left ih =>
    cases ht with
    | choice hp hq =>
      obtain ⟨first₁, e₁, first₂, e₂, h₁, h₂, -, he⟩ := getfirst_choice hfirst
      obtain ⟨rfl, rfl⟩ := Bool.or_eq_false_iff.mp he.symm
      obtain ⟨fuel', rfl⟩ := getfirst_pos h₁
      exact ih hrules hp hend _ h₁
  | choice_right left right ih ih' =>
    cases ht with
    | choice hp hq =>
      obtain ⟨first₁, e₁, first₂, e₂, h₁, h₂, -, he⟩ := getfirst_choice hfirst
      obtain ⟨rfl, rfl⟩ := Bool.or_eq_false_iff.mp he.symm
      obtain ⟨fuel', rfl⟩ := getfirst_pos h₂
      exact ih' hrules hq hend _ h₂
  | not body ih => cases (getfirst_not hfirst).1
  | and body ih =>
    cases ht with
    | and hp =>
      obtain ⟨first₁, hbody, -⟩ := getfirst_and hfirst
      obtain ⟨fuel', rfl⟩ := getfirst_pos hbody
      cases ih hrules hp hend _ hbody
  | call rule body ih =>
    obtain ⟨p, hp, hfirst⟩ := getfirst_call hfirst
    obtain rfl := Option.some.inj (rule.symm.trans hp)
    obtain ⟨fuel', rfl⟩ := getfirst_pos hfirst
    exact ih hrules (hrules _ (List.mem_of_getElem? rule)) hend _ hfirst
  | grammar initial body ih =>
    obtain ⟨p, hp, hfirst⟩ := getfirst_grammar hfirst
    obtain rfl := Option.some.inj (initial.symm.trans hp)
    obtain ⟨fuel', rfl⟩ := getfirst_pos hfirst
    cases ht with
    | grammar size all => exact ih all (all _ (List.mem_of_getElem? initial)) hend _ hfirst
  | behind room body ih => cases (getfirst_behind hfirst).2
  | capture body ih =>
    simp only [getfirst] at hfirst
    obtain ⟨fuel', rfl⟩ := getfirst_pos hfirst
    cases ht with
    | capture hp => cases ih hrules hp hend _ hfirst

section

variable {fuel : Nat} {p q : Tree}

theorem headfail_pos {b : Bool} (h : headfail fuel rules t = some b) :
    ∃ fuel', fuel = fuel' + 1 := by
  cases fuel with
  | zero => cases h
  | succ fuel => exact ⟨fuel, rfl⟩

theorem headfail_seq (h : headfail (fuel + 1) rules (.seq p q) = some true) :
    nofail fuel rules q = some true ∧ headfail fuel rules p = some true := by
  simp only [headfail, Option.bind_eq_bind, Option.bind_eq_some_iff] at h
  obtain ⟨second, hsecond, h⟩ := h
  cases second with
  | false => cases h
  | true => exact ⟨hsecond, h⟩

theorem headfail_choice (h : headfail (fuel + 1) rules (.choice p q) = some true) :
    headfail fuel rules p = some true ∧ headfail fuel rules q = some true := by
  simp only [headfail, Option.bind_eq_bind, Option.bind_eq_some_iff] at h
  obtain ⟨first, hfirst, h⟩ := h
  cases first with
  | false => cases h
  | true => exact ⟨hfirst, h⟩

theorem headfail_call {n : Nat} {b : Bool} (h : headfail (fuel + 1) rules (.call n) = some b) :
    ∃ p, rules[n]? = some p ∧ headfail fuel rules p = some b := by
  simpa only [headfail, Option.bind_eq_bind, Option.bind_eq_some_iff] using h

theorem headfail_grammar {rules' : List Tree} {b : Bool}
    (h : headfail (fuel + 1) rules (.grammar rules') = some b) :
    ∃ p, rules'[0]? = some p ∧ headfail fuel rules' p = some b := by
  simpa only [headfail, Option.bind_eq_bind, Option.bind_eq_some_iff] using h

end

theorem headfail_nonempty {fuel fuel' : Nat} {follow first : Charset} {e : Bool}
    (hhead : headfail fuel rules t = some true)
    (hfirst : getfirst fuel' rules t follow = some (first, e)) : e = false := by
  induction fuel generalizing fuel' rules t follow first e with
  | zero => cases hhead
  | succ fuel ih =>
    obtain ⟨fuel', rfl⟩ := getfirst_pos hfirst
    cases t with
    | char | set | any | false => exact (Prod.mk.inj (Option.some.inj hfirst)).2.symm
    | true | rep | not | behind => simp [headfail] at hhead
    | capture | and =>
      simp only [headfail] at hhead
      first
        | exact ih hhead hfirst
        | exact ih hhead (getfirst_and hfirst).choose_spec.1
    | call n =>
      obtain ⟨p, hp, hhead⟩ := headfail_call hhead
      obtain ⟨p', hp', hfirst⟩ := getfirst_call hfirst
      obtain rfl := Option.some.inj (hp.symm.trans hp')
      exact ih hhead hfirst
    | grammar rules' =>
      obtain ⟨p, hp, hhead⟩ := headfail_grammar hhead
      obtain ⟨p', hp', hfirst⟩ := getfirst_grammar hfirst
      obtain rfl := Option.some.inj (hp.symm.trans hp')
      exact ih hhead hfirst
    | seq p q =>
      obtain ⟨-, hhead⟩ := headfail_seq hhead
      obtain ⟨-, hbody⟩ | ⟨csaux, e₁, e₂, -, hbody, he⟩ := getfirst_seq hfirst
      · exact ih hhead hbody
      · rw [he, ih hhead hbody]
        rfl
    | choice p q =>
      obtain ⟨hp, hq⟩ := headfail_choice hhead
      obtain ⟨first₁, e₁, first₂, e₂, h₁, h₂, -, he⟩ := getfirst_choice hfirst
      rw [he, ih hp h₁, ih hq h₂]
      rfl

/-- A pattern that can fail only at its head matches before a character of its first set. -/
theorem Means.head (h : Means subject rules t i r) {fuel fuel' : Nat} {follow first : Charset}
    {e : Bool} {c : UInt8} (hhead : headfail fuel rules t = some Bool.true)
    (hfirst : getfirst fuel' rules t follow = some (first, e)) (hc : subject[i]? = some c)
    (hin : testchar first c = Bool.true) : r ≠ none := by
  obtain ⟨fuel, rfl⟩ := headfail_pos hhead
  obtain ⟨fuel', rfl⟩ := getfirst_pos hfirst
  induction h generalizing fuel fuel' follow first e with
  | char | set | any =>
    obtain ⟨rfl, -⟩ := Prod.mk.inj (Option.some.inj hfirst)
    simp_all [matchChar]
  | true | rep_stop | rep_more | seq | choice_left | not | and | capture =>
    exact Option.some_ne_none _
  | false =>
    obtain ⟨rfl, -⟩ := Prod.mk.inj (Option.some.inj hfirst)
    simp at hin
  | not_fail | behind_short | behind => simp [headfail] at hhead
  | seq_fail body ih =>
    obtain ⟨-, hhead⟩ := headfail_seq hhead
    obtain ⟨fuel, rfl⟩ := headfail_pos hhead
    obtain ⟨-, hbody⟩ | ⟨csaux, e₁, e₂, -, hbody, -⟩ := getfirst_seq hfirst
    · obtain ⟨fuel', rfl⟩ := getfirst_pos hbody
      exact ih hc hin _ hhead _ hbody
    · obtain ⟨fuel', rfl⟩ := getfirst_pos hbody
      exact ih hc hin _ hhead _ hbody
  | seq_break body second ih ih' => exact absurd rfl (second.found (headfail_seq hhead).1)
  | choice_right left right ih ih' =>
    obtain ⟨hleft, hright⟩ := headfail_choice hhead
    obtain ⟨first₁, e₁, first₂, e₂, h₁, h₂, rfl, -⟩ := getfirst_choice hfirst
    obtain ⟨fuel, rfl⟩ := headfail_pos hleft
    obtain ⟨fuel', rfl⟩ := getfirst_pos h₁
    simp only [testchar_union, Bool.or_eq_true] at hin
    obtain hin | hin := hin
    · exact absurd rfl (ih hc hin _ hleft _ h₁)
    · exact ih' hc hin _ hright _ h₂
  | and_fail body ih =>
    simp only [headfail] at hhead
    obtain ⟨first₁, hbody, rfl⟩ := getfirst_and hfirst
    obtain ⟨fuel, rfl⟩ := headfail_pos hhead
    obtain ⟨fuel', rfl⟩ := getfirst_pos hbody
    simp only [testchar_inter, Bool.and_eq_true] at hin
    exact ih hc hin.1 _ hhead _ hbody
  | call rule body ih =>
    obtain ⟨p, hp, hhead⟩ := headfail_call hhead
    obtain rfl := Option.some.inj (rule.symm.trans hp)
    obtain ⟨p, hp, hfirst⟩ := getfirst_call hfirst
    obtain rfl := Option.some.inj (rule.symm.trans hp)
    obtain ⟨fuel, rfl⟩ := headfail_pos hhead
    obtain ⟨fuel', rfl⟩ := getfirst_pos hfirst
    exact ih hc hin _ hhead _ hfirst
  | grammar initial body ih =>
    obtain ⟨p, hp, hhead⟩ := headfail_grammar hhead
    obtain rfl := Option.some.inj (initial.symm.trans hp)
    obtain ⟨p, hp, hfirst⟩ := getfirst_grammar hfirst
    obtain rfl := Option.some.inj (initial.symm.trans hp)
    obtain ⟨fuel, rfl⟩ := headfail_pos hhead
    obtain ⟨fuel', rfl⟩ := getfirst_pos hfirst
    exact ih hc hin _ hhead _ hfirst
  | capture_fail body ih =>
    simp only [headfail] at hhead
    simp only [getfirst] at hfirst
    obtain ⟨fuel, rfl⟩ := headfail_pos hhead
    obtain ⟨fuel', rfl⟩ := getfirst_pos hfirst
    exact ih hc hin _ hhead _ hfirst

theorem Means.head_at_end (h : Means subject rules t i r) {fuel : Nat}
    (hhead : headfail fuel rules t = some Bool.true) (hend : subject[i]? = none) : r = none := by
  obtain ⟨fuel, rfl⟩ := headfail_pos hhead
  induction h generalizing fuel with
  | char | set | any => exact matchChar_none hend
  | false | seq_fail | seq_break | not_fail | and_fail | behind_short | capture_fail => rfl
  | true | rep_stop | rep_more | not | behind => simp [headfail] at hhead
  | seq first second ih ih' =>
    obtain ⟨-, hhead⟩ := headfail_seq hhead
    obtain ⟨fuel, rfl⟩ := headfail_pos hhead
    cases ih hend _ hhead
  | choice_left left ih =>
    obtain ⟨hhead, -⟩ := headfail_choice hhead
    obtain ⟨fuel, rfl⟩ := headfail_pos hhead
    exact ih hend _ hhead
  | choice_right left right ih ih' =>
    obtain ⟨-, hhead⟩ := headfail_choice hhead
    obtain ⟨fuel, rfl⟩ := headfail_pos hhead
    exact ih' hend _ hhead
  | and body ih =>
    simp only [headfail] at hhead
    obtain ⟨fuel, rfl⟩ := headfail_pos hhead
    cases ih hend _ hhead
  | call rule body ih =>
    obtain ⟨p, hp, hhead⟩ := headfail_call hhead
    obtain rfl := Option.some.inj (rule.symm.trans hp)
    obtain ⟨fuel, rfl⟩ := headfail_pos hhead
    exact ih hend _ hhead
  | grammar initial body ih =>
    obtain ⟨p, hp, hhead⟩ := headfail_grammar hhead
    obtain rfl := Option.some.inj (initial.symm.trans hp)
    obtain ⟨fuel, rfl⟩ := headfail_pos hhead
    exact ih hend _ hhead
  | capture body ih =>
    simp only [headfail] at hhead
    obtain ⟨fuel, rfl⟩ := headfail_pos hhead
    cases ih hend _ hhead

end

end Esp32Project.Lpeg
