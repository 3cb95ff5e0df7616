import Esp32Project.Lpeg.Tree

/-!
What a pattern means: where a match from a position of the subject ends, and
the captures that it makes, or that there is no match. A pattern that never
ends, such as a left recursive one, has neither.
-/

set_option autoImplicit false

namespace Esp32Project.Lpeg

/-- An entry of the list of captures: position, `idx`, kind, and the size plus 1, or 0 for an entry
that a later one closes. -/
structure Capture where
  s : Nat
  idx : Nat
  kind : Nat
  siz : Nat
deriving DecidableEq, Repr

def cclose : Nat := 0

/-- A capture of what lies between two positions, with the captures inside. -/
def enclose (cap key i j : Nat) (inner : List Capture) : List Capture :=
  if inner = [] ∧ j - i < 255 then [⟨i, key, cap, j - i + 1⟩]
  else ⟨i, key, cap, 0⟩ :: (inner ++ [⟨j, 0, cclose, 1⟩])

abbrev Match := Nat × List Capture

def matchChar (subject : List UInt8) (i : Nat) (member : UInt8 → Bool) : Option Match :=
  match subject[i]? with
  | some c => if member c then some (i + 1, []) else none
  | none => none

example : matchChar [97] 0 (· = 97) = some (1, []) := by decide +kernel

/-- The meaning of a pattern among the rules of the grammar that it is in. -/
inductive Means (subject : List UInt8) : List Tree → Tree → Nat → Option Match → Prop where
  | char {rules : List Tree} {n : UInt8} {i : Nat} :
      Means subject rules (.char n) i (matchChar subject i (· = n))
  | set {rules : List Tree} {st : Charset} {i : Nat} :
      Means subject rules (.set st) i (matchChar subject i (testchar st))
  | any {rules : List Tree} {i : Nat} :
      Means subject rules .any i (matchChar subject i fun _ => Bool.true)
  | true {rules : List Tree} {i : Nat} : Means subject rules .true i (some (i, []))
  | false {rules : List Tree} {i : Nat} : Means subject rules .false i none
  | rep_stop {rules : List Tree} {p : Tree} {i : Nat} (stop : Means subject rules p i none) :
      Means subject rules (.rep p) i (some (i, []))
  | rep_more {rules : List Tree} {p : Tree} {i j k : Nat} {caps caps' : List Capture}
      (once : Means subject rules p i (some (j, caps)))
      (more : Means subject rules (.rep p) j (some (k, caps'))) :
      Means subject rules (.rep p) i (some (k, caps ++ caps'))
  | seq_fail {rules : List Tree} {p q : Tree} {i : Nat} (first : Means subject rules p i none) :
      Means subject rules (.seq p q) i none
  | seq_break {rules : List Tree} {p q : Tree} {i j : Nat} {caps : List Capture}
      (first : Means subject rules p i (some (j, caps))) (second : Means subject rules q j none) :
      Means subject rules (.seq p q) i none
  | seq {rules : List Tree} {p q : Tree} {i j k : Nat} {caps caps' : List Capture}
      (first : Means subject rules p i (some (j, caps)))
      (second : Means subject rules q j (some (k, caps'))) :
      Means subject rules (.seq p q) i (some (k, caps ++ caps'))
  | choice_left {rules : List Tree} {p q : Tree} {i : Nat} {m : Match}
      (left : Means subject rules p i (some m)) : Means subject rules (.choice p q) i (some m)
  | choice_right {rules : List Tree} {p q : Tree} {i : Nat} {r : Option Match}
      (left : Means subject rules p i none) (right : Means subject rules q i r) :
      Means subject rules (.choice p q) i r
  | not_fail {rules : List Tree} {p : Tree} {i : Nat} {m : Match}
      (body : Means subject rules p i (some m)) : Means subject rules (.not p) i none
  | not {rules : List Tree} {p : Tree} {i : Nat} (body : Means subject rules p i none) :
      Means subject rules (.not p) i (some (i, []))
  | and_fail {rules : List Tree} {p : Tree} {i : Nat} (body : Means subject rules p i none) :
      Means subject rules (.and p) i none
  | and {rules : List Tree} {p : Tree} {i : Nat} {m : Match}
      (body : Means subject rules p i (some m)) : Means subject rules (.and p) i (some (i, []))
  | call {rules : List Tree} {n : Nat} {p : Tree} {i : Nat} {r : Option Match}
      (rule : rules[n]? = some p) (body : Means subject rules p i r) :
      Means subject rules (.call n) i r
  | grammar {rules rules' : List Tree} {p : Tree} {i : Nat} {r : Option Match}
      (initial : rules'[0]? = some p) (body : Means subject rules' p i r) :
      Means subject rules (.grammar rules') i r
  | behind_short {rules : List Tree} {n : Nat} {p : Tree} {i : Nat} (short : ¬n ≤ i) :
      Means subject rules (.behind n p) i none
  | behind {rules : List Tree} {n : Nat} {p : Tree} {i : Nat} {r : Option Match} (room : n ≤ i)
      (body : Means subject rules p (i - n) r) : Means subject rules (.behind n p) i r
  | capture_fail {rules : List Tree} {cap key : Nat} {p : Tree} {i : Nat}
      (body : Means subject rules p i none) : Means subject rules (.capture cap key p) i none
  | capture {rules : List Tree} {cap key : Nat} {p : Tree} {i j : Nat} {inner : List Capture}
      (body : Means subject rules p i (some (j, inner))) :
      Means subject rules (.capture cap key p) i (some (j, enclose cap key i j inner))

/-- A look-behind has a fixed length of a byte, as `lp_behind` checks. The number of a rule fits in
the byte that `codecall` has for it, which `newgrammar` does not check: it takes MAXRULES rules. -/
inductive Tree.WellFormed : Tree → Prop where
  | char {n : UInt8} : WellFormed (.char n)
  | set {st : Charset} : WellFormed (.set st)
  | any : WellFormed .any
  | true : WellFormed .true
  | false : WellFormed .false
  | rep {p : Tree} (body : p.WellFormed) : WellFormed (.rep p)
  | seq {p q : Tree} (first : p.WellFormed) (second : q.WellFormed) : WellFormed (.seq p q)
  | choice {p q : Tree} (left : p.WellFormed) (right : q.WellFormed) : WellFormed (.choice p q)
  | not {p : Tree} (body : p.WellFormed) : WellFormed (.not p)
  | and {p : Tree} (body : p.WellFormed) : WellFormed (.and p)
  | call {n : Nat} : WellFormed (.call n)
  | grammar {rules : List Tree} (size : rules.length ≤ 256)
      (all : ∀ rule ∈ rules, rule.WellFormed) : WellFormed (.grammar rules)
  | behind {n fuel : Nat} {p : Tree} (body : p.WellFormed) (short : n ≤ maxBehind)
      (fixed : fixedlen fuel [] p = some (some n)) : WellFormed (.behind n p)
  | capture {cap key : Nat} {p : Tree} (body : p.WellFormed) : WellFormed (.capture cap key p)

end Esp32Project.Lpeg
