import Esp32Project.Lpeg.Analysis
import Esp32Project.Lpeg.Verify

/-!
A pattern that has passed its checks has a meaning everywhere: its left calls
come to an end, and each turn of a loop consumes something.
-/

set_option autoImplicit false

namespace Esp32Project.Lpeg

/-- A pattern that was built with its checks, among `n` rules. A look-behind has no calls, and a
sub-grammar is nowhere in a rule where `verifyrule` overlooks what is around it. -/
inductive Tree.Checked : Nat → Tree → Prop where
  | char {n : Nat} {c : UInt8} : Checked n (.char c)
  | set {n : Nat} {st : Charset} : Checked n (.set st)
  | any {n : Nat} : Checked n .any
  | true {n : Nat} : Checked n .true
  | false {n : Nat} : Checked n .false
  | rep {n : Nat} {p : Tree} (body : Checked n p) : Checked n (.rep p)
  | seq {n : Nat} {p q : Tree} (first : Checked n p) (second : Checked n q) : Checked n (.seq p q)
  | choice {n : Nat} {p q : Tree} (left : Checked n p) (right : Checked n q) :
      Checked n (.choice p q)
  | not {n : Nat} {p : Tree} (body : Checked n p) : Checked n (.not p)
  | and {n : Nat} {p : Tree} (body : Checked n p) : Checked n (.and p)
  | call {n m : Nat} (rule : m < n) : Checked n (.call m)
  | grammar {n fuel : Nat} {rules : List Tree} (initial : 0 < rules.length)
      (size : rules.length ≤ 256) (verified : verifygrammar fuel rules = some (.ok ()))
      (fair : ∀ rule ∈ rules, rule.keeps = Bool.true ∧ rule.fair = Bool.true)
      (all : ∀ rule ∈ rules, rule.Checked rules.length) : Checked n (.grammar rules)
  | behind {n m fuel : Nat} {p : Tree} (body : Checked 0 p) (short : m ≤ maxBehind)
      (fixed : fixedlen fuel [] p = some (some m)) : Checked n (.behind m p)
  | capture {n cap key : Nat} {p : Tree} (body : Checked n p) : Checked n (.capture cap key p)

/-- The calls that a pattern can make before it has consumed anything come to an end. -/
inductive LeftEnds (subject : List UInt8) (rules : List Tree) : Tree → Prop where
  | char {c : UInt8} : LeftEnds subject rules (.char c)
  | set {st : Charset} : LeftEnds subject rules (.set st)
  | any : LeftEnds subject rules .any
  | true : LeftEnds subject rules .true
  | false : LeftEnds subject rules .false
  | rep {p : Tree} (body : LeftEnds subject rules p) : LeftEnds subject rules (.rep p)
  | seq {p q : Tree} (first : LeftEnds subject rules p)
      (second : (∃ i caps, Means subject rules p i (some (i, caps))) → LeftEnds subject rules q) :
      LeftEnds subject rules (.seq p q)
  | choice {p q : Tree} (left : LeftEnds subject rules p) (right : LeftEnds subject rules q) :
      LeftEnds subject rules (.choice p q)
  | not {p : Tree} (body : LeftEnds subject rules p) : LeftEnds subject rules (.not p)
  | and {p : Tree} (body : LeftEnds subject rules p) : LeftEnds subject rules (.and p)
  | call {n : Nat} {p : Tree} (rule : rules[n]? = some p) (body : LeftEnds subject rules p) :
      LeftEnds subject rules (.call n)
  | grammar {rules' : List Tree} : LeftEnds subject rules (.grammar rules')
  | behind {n : Nat} {p : Tree} : LeftEnds subject rules (.behind n p)
  | capture {cap key : Nat} {p : Tree} (body : LeftEnds subject rules p) :
      LeftEnds subject rules (.capture cap key p)

/-- Each loop of a pattern consumes in every turn, its calls are of rules in `scope`, and what it
holds apart from its grammar has a meaning everywhere. -/
inductive Apt (subject : List UInt8) (rules : List Tree) (scope : Nat → Prop) : Tree → Prop where
  | char {c : UInt8} : Apt subject rules scope (.char c)
  | set {st : Charset} : Apt subject rules scope (.set st)
  | any : Apt subject rules scope .any
  | true : Apt subject rules scope .true
  | false : Apt subject rules scope .false
  | rep {p : Tree} (body : Apt subject rules scope p)
      (consumes : ∀ i j caps, Means subject rules p i (some (j, caps)) → i < j) :
      Apt subject rules scope (.rep p)
  | seq {p q : Tree} (first : Apt subject rules scope p) (second : Apt subject rules scope q) :
      Apt subject rules scope (.seq p q)
  | choice {p q : Tree} (left : Apt subject rules scope p) (right : Apt subject rules scope q) :
      Apt subject rules scope (.choice p q)
  | not {p : Tree} (body : Apt subject rules scope p) : Apt subject rules scope (.not p)
  | and {p : Tree} (body : Apt subject rules scope p) : Apt subject rules scope (.and p)
  | call {n : Nat} (called : scope n) : Apt subject rules scope (.call n)
  | grammar {rules' : List Tree} (total : ∀ i, ∃ r, Means subject rules (.grammar rules') i r) :
      Apt subject rules scope (.grammar rules')
  | behind {n : Nat} {p : Tree} (total : ∀ i, ∃ r, Means subject rules p i r) :
      Apt subject rules scope (.behind n p)
  | capture {cap key : Nat} {p : Tree} (body : Apt subject rules scope p) :
      Apt subject rules scope (.capture cap key p)

section

variable {subject : List UInt8} {rules : List Tree} {scope : Nat → Prop} {t : Tree} {i n : Nat}
  {r : Option Match}

theorem Tree.Checked.formed (h : t.Checked n) : t.WellFormed := by
  induction h with
  | char => exact .char
  | set => exact .set
  | any => exact .any
  | true => exact .true
  | false => exact .false
  | rep _ ih => exact .rep ih
  | seq _ _ ih ih' => exact .seq ih ih'
  | choice _ _ ih ih' => exact .choice ih ih'
  | not _ ih => exact .not ih
  | and _ ih => exact .and ih
  | call => exact .call
  | grammar _ size _ _ _ ih => exact .grammar size ih
  | behind _ short fixed ih => exact .behind ih short fixed
  | capture _ ih => exact .capture ih

/-- The rules in scope can be called, and their left calls end. -/
def Callable (subject : List UInt8) (rules : List Tree) (scope : Nat → Prop) : Prop :=
  ∀ n, scope n → ∃ p, rules[n]? = some p ∧ Apt subject rules scope p ∧ LeftEnds subject rules p

theorem Apt.leftEnds (h : Apt subject rules scope t) (hrules : Callable subject rules scope) :
    LeftEnds subject rules t := by
  induction h with
  | char => exact .char
  | set => exact .set
  | any => exact .any
  | true => exact .true
  | false => exact .false
  | rep _ _ ih => exact .rep ih
  | seq _ _ ih ih' => exact .seq ih fun _ => ih'
  | choice _ _ ih ih' => exact .choice ih ih'
  | not _ ih => exact .not ih
  | and _ ih => exact .and ih
  | call called =>
    obtain ⟨p, hrule, -, hends⟩ := hrules _ called
    exact .call hrule hends
  | grammar => exact .grammar
  | behind => exact .behind
  | capture _ ih => exact .capture ih

theorem Means.shrinks {j : Nat} {caps : List Capture}
    (h : Means subject rules t i (some (j, caps))) (hall : AllFormed rules) (ht : t.WellFormed)
    (hlt : i < j) : subject.length - j < subject.length - i := by
  have hinside : i < subject.length := by
    by_contra hend
    have hstays := h.stays hall ht (List.getElem?_eq_none (Nat.le_of_not_lt hend)) rfl
    omega
  omega

/-- A pattern whose left calls end has a meaning where all patterns have one further on. -/
theorem LeftEnds.total (h : LeftEnds subject rules t) (hrules : Callable subject rules scope)
    (hall : AllFormed rules) (hformed : t.WellFormed) (hapt : Apt subject rules scope t)
    (hlater : ∀ t' j, t'.WellFormed → Apt subject rules scope t' →
      subject.length - j < subject.length - i → ∃ r, Means subject rules t' j r) :
    ∃ r, Means subject rules t i r := by
  induction h with
  | char => exact ⟨_, .char⟩
  | set => exact ⟨_, .set⟩
  | any => exact ⟨_, .any⟩
  | true => exact ⟨_, .true⟩
  | false => exact ⟨_, .false⟩
  | rep body ih =>
    have hrep := hapt
    cases hapt with
    | rep hp consumes =>
      cases hformed with
      | rep hformed =>
        obtain ⟨_ | ⟨j, caps⟩, hbody⟩ := ih hformed hp
        · exact ⟨_, .rep_stop hbody⟩
        · have hlt := consumes _ _ _ hbody
          obtain ⟨_ | ⟨k, caps'⟩, hmore⟩ := hlater _ j (.rep hformed) hrep
            (hbody.shrinks hall hformed hlt)
          · cases hmore
          · exact ⟨_, .rep_more hbody hmore⟩
  | @seq p q first second ih ih' =>
    cases hapt with
    | seq hp hq =>
      cases hformed with
      | seq hfp hfq =>
        obtain ⟨_ | ⟨j, caps⟩, hfirst⟩ := ih hfp hp
        · exact ⟨_, .seq_fail hfirst⟩
        · have hsecond : ∃ r, Means subject rules q j r := by
            obtain hlt | rfl := Nat.lt_or_eq_of_le (hfirst.le hall hfp rfl)
            · exact hlater q j hfq hq (hfirst.shrinks hall hfp hlt)
            · exact ih' ⟨_, _, hfirst⟩ hfq hq
          obtain ⟨_ | ⟨k, caps'⟩, hsecond⟩ := hsecond
          · exact ⟨_, .seq_break hfirst hsecond⟩
          · exact ⟨_, .seq hfirst hsecond⟩
  | choice left right ih ih' =>
    cases hapt with
    | choice hp hq =>
      cases hformed with
      | choice hfp hfq =>
        obtain ⟨_ | m, hleft⟩ := ih hfp hp
        · obtain ⟨r, hright⟩ := ih' hfq hq
          exact ⟨r, .choice_right hleft hright⟩
        · exact ⟨_, .choice_left hleft⟩
  | not body ih =>
    cases hapt with
    | not hp =>
      cases hformed with
      | not hformed =>
        obtain ⟨_ | m, hbody⟩ := ih hformed hp
        · exact ⟨_, .not hbody⟩
        · exact ⟨_, .not_fail hbody⟩
  | and body ih =>
    cases hapt with
    | and hp =>
      cases hformed with
      | and hformed =>
        obtain ⟨_ | m, hbody⟩ := ih hformed hp
        · exact ⟨_, .and_fail hbody⟩
        · exact ⟨_, .and hbody⟩
  | call rule body ih =>
    cases hapt with
    | call called =>
      obtain ⟨p, hp, happly, -⟩ := hrules _ called
      obtain rfl := Option.some.inj (rule.symm.trans hp)
      obtain ⟨r, hbody⟩ := ih (hall _ (List.mem_of_getElem? rule)) happly
      exact ⟨r, .call rule hbody⟩
  | grammar =>
    cases hapt with
    | grammar total => exact total i
  | @behind n p =>
    cases hapt with
    | behind total =>
      by_cases hroom : n ≤ i
      · obtain ⟨r, hbody⟩ := total (i - n)
        exact ⟨r, .behind hroom hbody⟩
      · exact ⟨_, .behind_short hroom⟩
  | capture body ih =>
    cases hapt with
    | capture hp =>
      cases hformed with
      | capture hformed =>
        obtain ⟨_ | ⟨j, caps⟩, hbody⟩ := ih hformed hp
        · exact ⟨_, .capture_fail hbody⟩
        · exact ⟨_, .capture hbody⟩

theorem Apt.total (hrules : Callable subject rules scope) (hall : AllFormed rules) (i : Nat)
    (hformed : t.WellFormed) (hapt : Apt subject rules scope t) :
    ∃ r, Means subject rules t i r := by
  induction hm : subject.length - i using Nat.strong_induction_on generalizing t i with
  | _ m ih =>
    subst hm
    exact (hapt.leftEnds hrules).total hrules hall hformed hapt
      fun t' j hformed' hapt' hlt => ih _ hlt j hformed' hapt' rfl

/-- `verifyrule` does not lose that the pattern before was nullable. -/
theorem verifyrule_keeps {fuel : Nat} {passed : List Nat} {b : Bool}
    (hrules : ∀ rule ∈ rules, rule.keeps = true) (ht : t.keeps = true)
    (h : verifyrule fuel rules t passed true = some (.ok b)) : b = true := by
  induction fuel generalizing t passed b with
  | zero => cases h
  | succ fuel ih =>
    cases t with
    | char | set | any | false | true | behind =>
      exact (Except.ok.inj (Option.some.inj h)).symm
    | not p | and p | rep p | capture cap key p =>
      rw [Tree.keeps] at ht
      exact ih ht h
    | call n =>
      simp only [verifyrule, Option.bind_eq_bind, Option.bind_eq_some_iff] at h
      obtain ⟨rule, hrule, h⟩ := h
      split at h
      · cases h
      · exact ih (hrules rule (List.mem_of_getElem? hrule)) h
    | seq p q =>
      rw [Tree.keeps] at ht
      simp only [verifyrule, Option.bind_eq_bind, Option.bind_eq_some_iff] at h
      obtain ⟨e | first, hfirst, h⟩ := h
      · cases h
      · cases first with
        | true => exact ih ht h
        | false => exact (Except.ok.inj (Option.some.inj h)).symm
    | choice p q =>
      simp only [Tree.keeps, Bool.and_eq_true] at ht
      simp only [verifyrule, Option.bind_eq_bind, Option.bind_eq_some_iff] at h
      obtain ⟨e | left, hleft, h⟩ := h
      · cases h
      · obtain rfl := ih ht.1 hleft
        exact ih ht.2 h
    | grammar => cases ht

theorem verifyrule_pos {fuel : Nat} {passed : List Nat} {nb : Bool} {o : Except VerifyError Bool}
    (h : verifyrule fuel rules t passed nb = some o) : ∃ fuel', fuel = fuel' + 1 := by
  cases fuel with
  | zero => cases h
  | succ fuel => exact ⟨fuel, rfl⟩

theorem verifyrule_seq {fuel : Nat} {passed : List Nat} {nb b : Bool} {p q : Tree}
    (h : verifyrule (fuel + 1) rules (.seq p q) passed nb = some (.ok b)) :
    (verifyrule fuel rules p passed false = some (.ok false) ∧ b = nb) ∨
      (verifyrule fuel rules p passed false = some (.ok true) ∧
        verifyrule fuel rules q passed nb = some (.ok b)) := by
  simp only [verifyrule, Option.bind_eq_bind, Option.bind_eq_some_iff] at h
  obtain ⟨e | first, hfirst, h⟩ := h
  · cases h
  · cases first with
    | true => exact .inr ⟨hfirst, h⟩
    | false => exact .inl ⟨hfirst, (Except.ok.inj (Option.some.inj h)).symm⟩

theorem verifyrule_choice {fuel : Nat} {passed : List Nat} {nb b : Bool} {p q : Tree}
    (h : verifyrule (fuel + 1) rules (.choice p q) passed nb = some (.ok b)) :
    ∃ left, verifyrule fuel rules p passed nb = some (.ok left) ∧
      verifyrule fuel rules q passed left = some (.ok b) := by
  simp only [verifyrule, Option.bind_eq_bind, Option.bind_eq_some_iff] at h
  obtain ⟨e | left, hleft, h⟩ := h
  · cases h
  · exact ⟨left, hleft, h⟩

theorem verifyrule_call {fuel : Nat} {passed : List Nat} {nb b : Bool}
    (h : verifyrule (fuel + 1) rules (.call n) passed nb = some (.ok b)) :
    ∃ rule, rules[n]? = some rule ∧ verifyrule fuel rules rule (n :: passed) nb = some (.ok b) := by
  simp only [verifyrule, Option.bind_eq_bind, Option.bind_eq_some_iff] at h
  obtain ⟨rule, hrule, h⟩ := h
  split at h
  · cases h
  · exact ⟨rule, hrule, h⟩

/-- The rules of a grammar as `verifyrule` needs them. -/
structure FairRules (rules : List Tree) : Prop where
  formed : AllFormed rules
  keeps : ∀ rule ∈ rules, rule.keeps = true
  fair : ∀ rule ∈ rules, rule.fair = true

theorem Means.consumes (h : Means subject rules t i r) (hrules : FairRules rules)
    (hformed : t.WellFormed) (hfair : t.fair = Bool.true) {fuel j : Nat} {passed : List Nat}
    {nb : Bool} {caps : List Capture}
    (hverify : verifyrule fuel rules t passed nb = some (.ok Bool.false))
    (hr : r = some (j, caps)) : i < j := by
  obtain ⟨fuel, rfl⟩ := verifyrule_pos hverify
  induction h generalizing fuel passed nb j caps with
  | char | set | any =>
    obtain ⟨c, -, -, rfl, -⟩ := matchChar_eq_some hr
    exact Nat.lt_succ_self _
  | true | behind => cases hverify
  | false | seq_fail | seq_break | not_fail | and_fail | behind_short | capture_fail => cases hr
  | rep_stop | rep_more | not | and =>
    simp only [Tree.fair, Bool.and_eq_true] at hfair
    cases verifyrule_keeps hrules.keeps hfair.1 hverify
  | seq first second ih ih' =>
    cases hformed with
    | seq hp hq =>
      simp only [Tree.fair, Bool.and_eq_true] at hfair
      obtain ⟨rfl, -⟩ := Prod.mk.inj (Option.some.inj hr)
      obtain ⟨hfirst, -⟩ | ⟨-, hsecond⟩ := verifyrule_seq hverify
      · obtain ⟨fuel, rfl⟩ := verifyrule_pos hfirst
        exact Nat.lt_of_lt_of_le (ih hrules hp hfair.1 rfl _ hfirst)
          (second.le hrules.formed hq rfl)
      · obtain ⟨fuel, rfl⟩ := verifyrule_pos hsecond
        exact Nat.lt_of_le_of_lt (first.le hrules.formed hp rfl)
          (ih' hrules hq hfair.2 rfl _ hsecond)
  | choice_left left ih =>
    cases hformed with
    | choice hp hq =>
      simp only [Tree.fair, Bool.and_eq_true] at hfair
      obtain ⟨b, hleft, hright⟩ := verifyrule_choice hverify
      obtain ⟨fuel, rfl⟩ := verifyrule_pos hleft
      cases b with
      | true => cases verifyrule_keeps hrules.keeps hfair.1.2 hright
      | false => exact ih hrules hp hfair.1.1 hr _ hleft
  | choice_right left right ih ih' =>
    cases hformed with
    | choice hp hq =>
      simp only [Tree.fair, Bool.and_eq_true] at hfair
      obtain ⟨b, -, hright⟩ := verifyrule_choice hverify
      obtain ⟨fuel, rfl⟩ := verifyrule_pos hright
      exact ih' hrules hq hfair.2 hr _ hright
  | call rule body ih =>
    obtain ⟨p, hp, hbody⟩ := verifyrule_call hverify
    obtain rfl := Option.some.inj (rule.symm.trans hp)
    obtain ⟨fuel, rfl⟩ := verifyrule_pos hbody
    have hmem := List.mem_of_getElem? rule
    exact ih hrules (hrules.formed _ hmem) (hrules.fair _ hmem) hr _ hbody
  | grammar initial body ih =>
    simp only [verifyrule, Option.map_eq_some_iff, Except.ok.injEq] at hverify
    obtain ⟨b, hnull, rfl⟩ := hverify
    exact (Means.grammar initial body).lt hrules.formed hformed hnull hr
  | capture body ih =>
    cases hformed with
    | capture hp =>
      obtain ⟨rfl, -⟩ := Prod.mk.inj (Option.some.inj hr)
      have hbody : verifyrule fuel _ _ passed nb = some (.ok Bool.false) := hverify
      obtain ⟨fuel, rfl⟩ := verifyrule_pos hbody
      exact ih hrules hp hfair rfl _ hbody

/-- The left calls of a pattern that passes `verifyrule` end. -/
theorem verifyrule_leftEnds {fuel : Nat} {passed : List Nat} {nb b : Bool}
    (subject : List UInt8) (hrules : FairRules rules) (hformed : t.WellFormed)
    (hfair : t.fair = true) (h : verifyrule fuel rules t passed nb = some (.ok b)) :
    LeftEnds subject rules t := by
  induction fuel generalizing t passed nb b with
  | zero => cases h
  | succ fuel ih =>
    cases hformed with
    | char => exact .char
    | set => exact .set
    | any => exact .any
    | true => exact .true
    | false => exact .false
    | rep hp =>
      simp only [Tree.fair, Bool.and_eq_true] at hfair
      exact .rep (ih hp hfair.2 h)
    | not hp =>
      simp only [Tree.fair, Bool.and_eq_true] at hfair
      exact .not (ih hp hfair.2 h)
    | and hp =>
      simp only [Tree.fair, Bool.and_eq_true] at hfair
      exact .and (ih hp hfair.2 h)
    | capture hp => exact .capture (ih hp hfair h)
    | seq hp hq =>
      simp only [Tree.fair, Bool.and_eq_true] at hfair
      obtain ⟨hfirst, -⟩ | ⟨hfirst, hsecond⟩ := verifyrule_seq h
      · refine .seq (ih hp hfair.1 hfirst) fun ⟨i, caps, hmeans⟩ => ?_
        exact absurd (hmeans.consumes hrules hp hfair.1 hfirst rfl) (Nat.lt_irrefl i)
      · exact .seq (ih hp hfair.1 hfirst) fun _ => ih hq hfair.2 hsecond
    | choice hp hq =>
      simp only [Tree.fair, Bool.and_eq_true] at hfair
      obtain ⟨left, hleft, hright⟩ := verifyrule_choice h
      exact .choice (ih hp hfair.1.1 hleft) (ih hq hfair.2 hright)
    | call =>
      obtain ⟨rule, hrule, hbody⟩ := verifyrule_call h
      have hmem := List.mem_of_getElem? hrule
      exact .call hrule (ih (hrules.formed rule hmem) (hrules.fair rule hmem) hbody)
    | grammar => exact .grammar
    | behind => exact .behind

theorem checkloops_pos {fuel : Nat} {b : Bool} (h : checkloops fuel rules t = some b) :
    ∃ fuel', fuel = fuel' + 1 := by
  cases fuel with
  | zero => cases h
  | succ fuel => exact ⟨fuel, rfl⟩

theorem checkloops_rep {fuel : Nat} {p : Tree}
    (h : checkloops (fuel + 1) rules (.rep p) = some false) :
    nullable fuel rules p = some false ∧ checkloops fuel rules p = some false := by
  simp only [checkloops, Option.bind_eq_bind, Option.bind_eq_some_iff] at h
  obtain ⟨b, hnull, h⟩ := h
  cases b with
  | true => cases h
  | false => exact ⟨hnull, h⟩

theorem checkloops_seq {fuel : Nat} {p q : Tree}
    (h : checkloops (fuel + 1) rules (.seq p q) = some false) :
    checkloops fuel rules p = some false ∧ checkloops fuel rules q = some false := by
  simp only [checkloops, Option.bind_eq_bind, Option.bind_eq_some_iff] at h
  obtain ⟨b, hfirst, h⟩ := h
  cases b with
  | true => cases h
  | false => exact ⟨hfirst, h⟩

theorem eachRule_ok {check : Nat → Tree → Option (Except VerifyError Unit)}
    {list : List (Tree × Nat)} (h : eachRule rules check list = some (.ok ())) {p : Tree}
    (hmem : (p, n) ∈ list) (hkey : hasKey rules n = true) : check n p = some (.ok ()) := by
  induction list with
  | nil => cases hmem
  | cons first list ih =>
    obtain ⟨rule, m⟩ := first
    rw [eachRule] at h
    cases hfirst : hasKey rules m with
    | false =>
      simp only [hfirst, Bool.not_false, if_true] at h
      obtain heq | hmem := List.mem_cons.mp hmem
      · cases heq
        rw [hkey] at hfirst
        cases hfirst
      · exact ih h hmem
    | true =>
      simp only [hfirst, Bool.not_true, Bool.false_eq_true, if_false, Option.bind_eq_bind,
        Option.bind_eq_some_iff] at h
      obtain ⟨e | u, hcheck, h⟩ := h
      · cases h
      · obtain heq | hmem := List.mem_cons.mp hmem
        · cases heq
          exact hcheck
        · exact ih h hmem

theorem verifygrammar_ok {fuel : Nat} {p : Tree} (h : verifygrammar fuel rules = some (.ok ()))
    (hrule : rules[n]? = some p) (hkey : hasKey rules n = true) :
    (∃ b, verifyrule fuel rules p [] false = some (.ok b)) ∧
      checkloops fuel rules p = some false := by
  have hmem : (p, n) ∈ rules.zipIdx := List.mk_mem_zipIdx_iff_getElem?.mpr hrule
  simp only [verifygrammar, Option.bind_eq_bind, Option.bind_eq_some_iff] at h
  obtain ⟨e | u, hcalls, hloops⟩ := h
  · cases hloops
  have hverify := eachRule_ok hcalls hmem hkey
  have hloop := eachRule_ok hloops hmem hkey
  simp only [Option.bind_eq_some_iff] at hverify hloop
  obtain ⟨e | b, hb, hverify⟩ := hverify
  · cases hverify
  obtain ⟨loop, hcheck, hloop⟩ := hloop
  cases loop with
  | true => cases hloop
  | false => exact ⟨⟨b, hb⟩, hcheck⟩

/-- A verified grammar has a meaning everywhere, when its rules are apt. -/
theorem grammar_total {fuel : Nat} {rules' : List Tree} (hinitial : 0 < rules'.length)
    (hverified : verifygrammar fuel rules' = some (.ok ())) (hfair : FairRules rules')
    (hapt : ∀ (n : Nat) (p : Tree), rules'[n]? = some p → checkloops fuel rules' p = some false →
      Apt subject rules' (fun m => m < rules'.length ∧ hasKey rules' m = true) p) (i : Nat) :
    ∃ r, Means subject rules (.grammar rules') i r := by
  have hcallable : Callable subject rules'
      (fun m => m < rules'.length ∧ hasKey rules' m = true) := fun n ⟨hlt, hkey⟩ => by
    have hrule := List.getElem?_eq_getElem hlt
    obtain ⟨⟨b, hverify⟩, hloops⟩ := verifygrammar_ok hverified hrule hkey
    have hmem := List.getElem_mem hlt
    exact ⟨_, hrule, hapt n _ hrule hloops,
      verifyrule_leftEnds subject hfair (hfair.formed _ hmem) (hfair.fair _ hmem) hverify⟩
  obtain ⟨p, hp, happly, -⟩ := hcallable 0 ⟨hinitial, by simp [hasKey]⟩
  obtain ⟨r, hr⟩ := happly.total hcallable hfair.formed i (hfair.formed _ (List.mem_of_getElem? hp))
  exact ⟨r, .grammar hp hr⟩

theorem Tree.Checked.apt (h : t.Checked n) (subject : List UInt8) {rules : List Tree}
    {scope : Nat → Prop} {fuel : Nat} (hall : AllFormed rules)
    (hscope : ∀ m, t.calls m = Bool.true → m < n → scope m)
    (hloops : checkloops fuel rules t = some Bool.false) : Apt subject rules scope t := by
  induction h generalizing rules scope fuel with
  | char => exact .char
  | set => exact .set
  | any => exact .any
  | true => exact .true
  | false => exact .false
  | rep body ih =>
    obtain ⟨fuel, rfl⟩ := checkloops_pos hloops
    obtain ⟨hnull, hbody⟩ := checkloops_rep hloops
    exact .rep (ih hall hscope hbody) fun i j caps hmeans => hmeans.lt hall body.formed hnull rfl
  | seq first second ih ih' =>
    obtain ⟨fuel, rfl⟩ := checkloops_pos hloops
    obtain ⟨hfirst, hsecond⟩ := checkloops_seq hloops
    refine .seq (ih hall (fun m hm => hscope m ?_) hfirst)
      (ih' hall (fun m hm => hscope m ?_) hsecond)
    · rw [Tree.calls, hm, Bool.true_or]
    · rw [Tree.calls, hm, Bool.or_true]
  | choice left right ih ih' =>
    obtain ⟨fuel, rfl⟩ := checkloops_pos hloops
    obtain ⟨hleft, hright⟩ := checkloops_seq hloops
    refine .choice (ih hall (fun m hm => hscope m ?_) hleft)
      (ih' hall (fun m hm => hscope m ?_) hright)
    · rw [Tree.calls, hm, Bool.true_or]
    · rw [Tree.calls, hm, Bool.or_true]
  | not body ih =>
    obtain ⟨fuel, rfl⟩ := checkloops_pos hloops
    exact .not (ih hall hscope hloops)
  | and body ih =>
    obtain ⟨fuel, rfl⟩ := checkloops_pos hloops
    exact .and (ih hall hscope hloops)
  | @call n m rule => exact .call (hscope m (decide_eq_true rfl) rule)
  | @grammar n fuel' rules' initial size verified fair all ih =>
    have hfair : FairRules rules' := ⟨fun p hp => (all p hp).formed, fun p hp => (fair p hp).1,
      fun p hp => (fair p hp).2⟩
    refine .grammar (grammar_total initial verified hfair fun k p hp hloop => ?_)
    have hmem := List.mem_of_getElem? hp
    exact ih p hmem hfair.formed (fun m hm hlt => ⟨hlt, by
      rw [hasKey, List.any_eq_true.mpr ⟨p, hmem, hm⟩, Bool.or_true]⟩) hloop
  | @behind n m fuel' p body short fixed ih =>
    obtain ⟨fuel, rfl⟩ := checkloops_pos hloops
    have hbody : Apt subject rules (fun _ => False) p :=
      ih hall (fun m _ hlt => absurd hlt (Nat.not_lt_zero m)) hloops
    exact .behind fun i => hbody.total (fun k hk => hk.elim) hall i body.formed
  | capture body ih =>
    obtain ⟨fuel, rfl⟩ := checkloops_pos hloops
    exact .capture (ih hall hscope hloops)

/-- A pattern that has passed its checks has a meaning at every position of every subject. -/
theorem Tree.Checked.total (h : t.Checked 0) {fuel : Nat}
    (hloops : checkloops fuel [] t = some Bool.false) (subject : List UInt8) (i : Nat) :
    ∃ r, Means subject [] t i r := by
  have hnone : AllFormed [] := fun p hp => (List.not_mem_nil hp).elim
  have hapt : Apt subject [] (fun _ => False) t :=
    h.apt subject hnone (fun m _ hlt => absurd hlt (Nat.not_lt_zero m)) hloops
  exact hapt.total (fun k hk => hk.elim) hnone i h.formed

end

end Esp32Project.Lpeg
