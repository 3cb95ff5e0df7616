import Esp32Project.Lpeg.Charset

/-!
Patterns of LPeg as trees, and the analyses that the code generator asks for.
They follow the calls of a grammar into its rules, so each runs on fuel and
gives nothing where the source does not end.
-/

set_option autoImplicit false

namespace Esp32Project.Lpeg

/-- A pattern. A call has the number of a rule of the grammar that it is in. -/
inductive Tree where
  | char (n : UInt8)
  | set (st : Charset)
  | any
  | true
  | false
  | rep (p : Tree)
  | seq (p q : Tree)
  | choice (p q : Tree)
  | not (p : Tree)
  | and (p : Tree)
  | call (n : Nat)
  | grammar (rules : List Tree)
  | behind (n : Nat) (p : Tree)
  | capture (cap key : Nat) (p : Tree)

def maxRules : Nat := 1000

def maxOff : Nat := 15

def maxBehind : Nat := 255

def toCharset : Tree → Option Charset
  | .set st => some st
  | .char n => some (setchar emptyset n)
  | .any => some fullset
  | _ => none

/-- A rule is followed by the next ones, so a call looks at all rules from its own. -/
def hascaptures : Nat → List Tree → Tree → Option Bool
  | 0, _, _ => none
  | fuel + 1, rules, tree =>
    match tree with
    | .capture _ _ _ => some Bool.true
    | .call n => (rules.drop n).anyM (hascaptures fuel rules)
    | .grammar rules' => rules'.anyM (hascaptures fuel rules')
    | .rep p | .not p | .and p | .behind _ p => hascaptures fuel rules p
    | .seq p q | .choice p q => do
      if ← hascaptures fuel rules p then return Bool.true
      hascaptures fuel rules q
    | .char _ | .set _ | .any | .true | .false => some Bool.false

inductive Pred where
  | nullable
  | nofail
deriving DecidableEq

def checkaux : Nat → List Tree → Pred → Tree → Option Bool
  | 0, _, _, _ => none
  | fuel + 1, rules, pred, tree =>
    match tree with
    | .char _ | .set _ | .any | .false => some Bool.false
    | .rep _ | .true => some Bool.true
    | .not _ | .behind _ _ => some (pred = .nullable)
    | .and p => if pred = .nullable then some Bool.true else checkaux fuel rules pred p
    | .seq p q => do
      if ← checkaux fuel rules pred p then checkaux fuel rules pred q else return Bool.false
    | .choice p q => do
      if ← checkaux fuel rules pred q then return Bool.true
      checkaux fuel rules pred p
    | .capture _ _ p => checkaux fuel rules pred p
    | .grammar rules' => do checkaux fuel rules' pred (← rules'[0]?)
    | .call n => do checkaux fuel rules pred (← rules[n]?)

def nullable (fuel : Nat) (rules : List Tree) : Tree → Option Bool :=
  checkaux fuel rules .nullable

def nofail (fuel : Nat) (rules : List Tree) : Tree → Option Bool :=
  checkaux fuel rules .nofail

/-- The number of characters of a match added to `len`; `some none` is the -1 of the source. -/
def fixedlenx : Nat → List Tree → Tree → Nat → Nat → Option (Option Nat)
  | 0, _, _, _, _ => none
  | fuel + 1, rules, tree, count, len =>
    match tree with
    | .char _ | .set _ | .any => some (some (len + 1))
    | .false | .true | .not _ | .and _ | .behind _ _ => some (some len)
    | .rep _ => some none
    | .capture _ _ p => fixedlenx fuel rules p count len
    | .grammar rules' => do fixedlenx fuel rules' (← rules'[0]?) count len
    | .call n => do
      if count ≥ maxRules then return none
      fixedlenx fuel rules (← rules[n]?) (count + 1) len
    | .seq p q => do
      match ← fixedlenx fuel rules p count len with
      | none => return none
      | some len => fixedlenx fuel rules q count len
    | .choice p q => do
      match ← fixedlenx fuel rules p count len with
      | none => return none
      | some n₁ =>
        let n₂ ← fixedlenx fuel rules q count len
        return if some n₁ = n₂ then some n₁ else none

def fixedlen (fuel : Nat) (rules : List Tree) (tree : Tree) : Option (Option Nat) :=
  fixedlenx fuel rules tree 0 0

/-- The first set, and whether the pattern accepts the empty string. -/
def getfirst : Nat → List Tree → Tree → Charset → Option (Charset × Bool)
  | 0, _, _, _ => none
  | fuel + 1, rules, tree, follow =>
    match tree with
    | .char n => some (setchar emptyset n, Bool.false)
    | .set st => some (st, Bool.false)
    | .any => some (fullset, Bool.false)
    | .true => some (follow, Bool.true)
    | .false => some (emptyset, Bool.false)
    | .choice p q => do
      let (first, e₁) ← getfirst fuel rules p follow
      let (csaux, e₂) ← getfirst fuel rules q follow
      return (csUnion first csaux, e₁ || e₂)
    | .seq p q => do
      if ← nullable fuel rules p then
        let (csaux, e₂) ← getfirst fuel rules q follow
        let (first, e₁) ← getfirst fuel rules p csaux
        return (first, if e₁ then e₂ else Bool.false)
      else
        getfirst fuel rules p fullset
    | .rep p => do
      let (first, _) ← getfirst fuel rules p follow
      return (csUnion first follow, Bool.true)
    | .capture _ _ p => getfirst fuel rules p follow
    | .grammar rules' => do getfirst fuel rules' (← rules'[0]?) follow
    | .call n => do getfirst fuel rules (← rules[n]?) follow
    | .and p => do
      let (first, e) ← getfirst fuel rules p follow
      return (csInter first follow, e)
    | .not p =>
      match toCharset p with
      | some st => some (csComplement st, Bool.true)
      | none => do
        let _ ← getfirst fuel rules p follow
        return (follow, Bool.true)
    | .behind _ p => do
      let _ ← getfirst fuel rules p follow
      return (follow, Bool.true)

def headfail : Nat → List Tree → Tree → Option Bool
  | 0, _, _ => none
  | fuel + 1, rules, tree =>
    match tree with
    | .char _ | .set _ | .any | .false => some Bool.true
    | .true | .rep _ | .not _ | .behind _ _ => some Bool.false
    | .capture _ _ p | .and p => headfail fuel rules p
    | .grammar rules' => do headfail fuel rules' (← rules'[0]?)
    | .call n => do headfail fuel rules (← rules[n]?)
    | .seq p q => do
      if ← nofail fuel rules q then headfail fuel rules p else return Bool.false
    | .choice p q => do
      if ← headfail fuel rules p then headfail fuel rules q else return Bool.false

def needfollow : Tree → Bool
  | .char _ | .set _ | .any | .false | .true | .and _ | .not _ => Bool.false
  | .grammar _ | .call _ | .behind _ _ => Bool.false
  | .choice _ _ | .rep _ => Bool.true
  | .capture _ _ p => needfollow p
  | .seq _ q => needfollow q

-- The equations of the analyses, made once for all the proofs that rewrite with them.
section

attribute [local simp] hascaptures checkaux fixedlenx getfirst headfail

end

end Esp32Project.Lpeg
