import Esp32Project.Lpeg.Tree

/-!
The checks of a new grammar: no rule may call itself before it has consumed
anything, and no repetition may have a body that accepts the empty string.
-/

set_option autoImplicit false

namespace Esp32Project.Lpeg

/-- The errors of `verifygrammar`, with the number of the rule in place of its name. -/
inductive VerifyError where
  | leftRecursive (rule : Nat)
  | tooManyLeftCalls
  | emptyLoop (rule : Nat)
deriving DecidableEq

/-- The rules that were entered, the last one first, are searched for a repetition. -/
def verifyerror : List Nat → VerifyError
  | [] => .tooManyLeftCalls
  | n :: passed => if n ∈ passed then .leftRecursive n else verifyerror passed

/-- Whether a pattern is nullable, or an error if it may be left recursive. -/
def verifyrule : Nat → List Tree → Tree → List Nat → Bool → Option (Except VerifyError Bool)
  | 0, _, _, _, _ => none
  | fuel + 1, rules, tree, passed, nb =>
    match tree with
    | .char _ | .set _ | .any | .false => some (.ok nb)
    | .true | .behind _ _ => some (.ok Bool.true)
    | .not p | .and p | .rep p => verifyrule fuel rules p passed Bool.true
    | .capture _ _ p => verifyrule fuel rules p passed nb
    | .call n => do
      let rule ← rules[n]?
      if passed.length ≥ maxRules then return .error (verifyerror passed)
      verifyrule fuel rules rule (n :: passed) nb
    | .seq p q => do
      match ← verifyrule fuel rules p passed Bool.false with
      | .error e => return .error e
      | .ok first => if first then verifyrule fuel rules q passed nb else return .ok nb
    | .choice p q => do
      match ← verifyrule fuel rules p passed nb with
      | .error e => return .error e
      | .ok nb => verifyrule fuel rules q passed nb
    | .grammar _ => (nullable fuel rules tree).map .ok

/-- Whether a pattern has potential infinite loops; sub-grammars have been checked already. -/
def checkloops : Nat → List Tree → Tree → Option Bool
  | 0, _, _ => none
  | fuel + 1, rules, tree =>
    match tree with
    | .rep p => do
      if ← nullable fuel rules p then return Bool.true
      checkloops fuel rules p
    | .not p | .and p | .behind _ p | .capture _ _ p => checkloops fuel rules p
    | .seq p q | .choice p q => do
      if ← checkloops fuel rules p then return Bool.true
      checkloops fuel rules q
    | .grammar _ | .char _ | .set _ | .any | .true | .false | .call _ => some Bool.false

example : checkloops 3 [] (.rep .true) = some true := by decide +kernel

def Tree.calls (n : Nat) : Tree → Bool
  | .call m => m = n
  | .rep p | .not p | .and p | .behind _ p | .capture _ _ p => p.calls n
  | .seq p q | .choice p q => p.calls n || q.calls n
  | .grammar _ | .char _ | .set _ | .any | .true | .false => Bool.false

/-- A rule has a key: it is the initial one, or it is called. -/
def hasKey (rules : List Tree) (n : Nat) : Bool :=
  n = 0 || rules.any (Tree.calls n)

def eachRule (rules : List Tree) (check : Nat → Tree → Option (Except VerifyError Unit)) :
    List (Tree × Nat) → Option (Except VerifyError Unit)
  | [] => some (.ok ())
  | (rule, n) :: rest => do
    if !hasKey rules n then eachRule rules check rest
    else match ← check n rule with
    | .error e => return .error e
    | .ok _ => eachRule rules check rest

def verifygrammar (fuel : Nat) (rules : List Tree) : Option (Except VerifyError Unit) := do
  match ← eachRule rules
      (fun _ rule => do return (← verifyrule fuel rules rule [] Bool.false).map fun _ => ())
      rules.zipIdx with
  | .error e => return .error e
  | .ok _ =>
    eachRule rules
      (fun n rule => do
        return if ← checkloops fuel rules rule then .error (.emptyLoop n) else .ok ())
      rules.zipIdx

/-- `verifyrule` does not lose that a pattern is nullable; it does where a sub-grammar is last. -/
def Tree.keeps : Tree → Bool
  | .grammar _ => Bool.false
  | .rep p | .not p | .and p | .capture _ _ p | .seq _ p => p.keeps
  | .choice p q => p.keeps && q.keeps
  | .behind _ _ | .char _ | .set _ | .any | .true | .false | .call _ => Bool.true

/-- No sub-grammar is where `verifyrule` would lose that the pattern around it is nullable. -/
def Tree.fair : Tree → Bool
  | .rep p | .not p | .and p => p.keeps && p.fair
  | .choice p q => p.fair && q.keeps && q.fair
  | .seq p q => p.fair && q.fair
  | .capture _ _ p => p.fair
  | .behind _ _ | .grammar _ | .char _ | .set _ | .any | .true | .false | .call _ => Bool.true

-- The equations of the checks, made once for all the proofs about them.
section

attribute [local simp] verifyrule checkloops Tree.calls eachRule verifygrammar Tree.keeps Tree.fair

end

end Esp32Project.Lpeg
