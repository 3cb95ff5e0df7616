import Esp32Project.Lpeg.Vm

/-!
The code generator of LPeg. The code of a pattern is put together from the code
of its parts, with the offsets that `jumptohere` and `jumptothere` set. `tt` is
the test that protects the code, and `fl` the first set of what follows.
-/

set_option autoImplicit false

namespace Esp32Project.Lpeg

/-- `codegen` for the parts of a pattern. -/
abbrev Gen := List Tree → Tree → Bool → Option Instruction → Charset → Option (List Instruction)

def codechar (c : UInt8) (tt : Option Instruction) : Instruction :=
  match tt with
  | some (.iTestChar aux _) => if aux = c then .iAny else .iChar c
  | _ => .iChar c

def codecharset (cs : Charset) (tt : Option Instruction) : Instruction :=
  match charsettype cs with
  | .char c => codechar c tt
  | .set =>
    match tt with
    | some (.iTestSet buff _) => if cs = buff then .iAny else .iSet cs
    | _ => .iSet cs
  | .fail => .iFail
  | .any => .iAny

def testset (cs : Charset) : Int → Instruction :=
  match charsettype cs with
  | .fail => .iJmp
  | .any => .iTestAny
  | .char c => .iTestChar c
  | .set => .iTestSet cs

def codetestset (cs : Charset) (e : Bool) : Option (Int → Instruction) :=
  if e then none else some (testset cs)

def atTest (test : Option (Int → Instruction)) (offset : Int) : List Instruction :=
  (test.map (· offset)).toList

def protect (test : Option (Int → Instruction)) : Option Instruction :=
  test.map (· 0)

def codebehind (gen : Gen) (rules : List Tree) (n : Nat) (p : Tree) :
    Option (List Instruction) := do
  let code ← gen rules p false none fullset
  return (if n > 0 then [.iBehind (n % 256)] else []) ++ code

/-- A character tells which of the two patterns of a choice can match. -/
def choiceApart (fuel : Nat) (rules : List Tree) (p₁ p₂ : Tree) (cs₁ : Charset) (e₁ : Bool)
    (fl : Charset) : Option Bool := do
  if ← headfail fuel rules p₁ then return true
  if e₁ then return false
  let (cs₂, _) ← getfirst fuel rules p₂ fl
  return csDisjoint cs₁ cs₂

def isTrue : Tree → Bool
  | .true => true
  | _ => false

def codechoice (gen : Gen) (fuel : Nat) (rules : List Tree) (p₁ p₂ : Tree) (opt : Bool)
    (fl : Charset) : Option (List Instruction) := do
  let emptyp₂ := isTrue p₂
  let (cs₁, e₁) ← getfirst fuel rules p₁ fullset
  if ← choiceApart fuel rules p₁ p₂ cs₁ e₁ fl then
    let test := testset cs₁
    let code₁ ← gen rules p₁ false (some (test 0)) fl
    let code₂ ← gen rules p₂ opt none fl
    let jmp := if emptyp₂ then [] else [.iJmp (1 + code₂.length)]
    return test (1 + code₁.length + jmp.length) :: (code₁ ++ jmp ++ code₂)
  else if opt && emptyp₂ then
    let code₁ ← gen rules p₁ true none fullset
    return .iPartialCommit 1 :: code₁
  else
    let test := codetestset cs₁ e₁
    let code₁ ← gen rules p₁ emptyp₂ (protect test) fullset
    let code₂ ← gen rules p₂ opt none fl
    return atTest test (3 + code₁.length) ++
      .iChoice (2 + code₁.length) :: (code₁ ++ .iCommit (1 + code₂.length) :: code₂)

/-- The length of a pattern without captures, when it is fixed and at most `most`. -/
def shortLen (fuel : Nat) (rules : List Tree) (p : Tree) (most : Nat) : Option (Option Nat) := do
  match ← fixedlen fuel rules p with
  | none => return none
  | some n =>
    if n > most then return none
    if ← hascaptures fuel rules p then return none
    return some n

def codeand (gen : Gen) (fuel : Nat) (rules : List Tree) (p : Tree) (tt : Option Instruction) :
    Option (List Instruction) := do
  let short ← shortLen fuel rules p maxBehind
  let code ← gen rules p false tt fullset
  match short with
  | some n => return code ++ if n > 0 then [.iBehind n] else []
  | none => return .iChoice (2 + code.length) :: (code ++ [.iBackCommit 2, .iFail])

def codecapture (gen : Gen) (fuel : Nat) (rules : List Tree) (cap key : Nat) (p : Tree)
    (tt : Option Instruction) (fl : Charset) : Option (List Instruction) := do
  let short ← shortLen fuel rules p maxOff
  let code ← gen rules p false tt fl
  match short with
  | some len => return code ++ [.iFullCapture cap key len]
  | none => return .iOpenCapture cap key :: (code ++ [.iCloseCapture])

def coderep (gen : Gen) (fuel : Nat) (rules : List Tree) (p : Tree) (opt : Bool) (fl : Charset) :
    Option (List Instruction) := do
  match toCharset p with
  | some st => return [.iSpan st]
  | none =>
    let (st, e₁) ← getfirst fuel rules p fullset
    if (← headfail fuel rules p) || (!e₁ && csDisjoint st fl) then
      let test := testset st
      let code ← gen rules p false (some (test 0)) fullset
      return test (2 + code.length) :: (code ++ [.iJmp (-(1 + code.length))])
    else
      let test := codetestset st e₁
      let code ← gen rules p false none fullset
      let enter := if opt then .iPartialCommit 1 else .iChoice (2 + code.length)
      return atTest test (3 + code.length) ++ enter :: (code ++ [.iPartialCommit (-code.length)])

def codenot (gen : Gen) (fuel : Nat) (rules : List Tree) (p : Tree) :
    Option (List Instruction) := do
  let (st, e) ← getfirst fuel rules p fullset
  let test := codetestset st e
  if ← headfail fuel rules p then
    return atTest test 2 ++ [.iFail]
  else
    let code ← gen rules p false none fullset
    return atTest test (3 + code.length) ++ .iChoice (2 + code.length) :: (code ++ [.iFailTwice])

/-- The end of a sequence of jumps, which has to stay in the code. -/
def finaltarget : Nat → List Instruction → Nat → Option Nat
  | 0, _, _ => none
  | fuel + 1, code, i =>
    match code[i]? with
    | none => none
    | some (.iJmp offset) =>
      if 0 ≤ i + offset then finaltarget fuel code (target i offset) else none
    | some _ => some i

/-- The loop of `correctcalls` at an instruction; a call before a return becomes a jump. -/
def correctcall (fuel : Nat) (positions : List Nat) (code : List Instruction) (i : Nat) :
    Option (List Instruction) :=
  match code[i]? with
  | some (.iOpenCall n) => do
    let rule ← positions[n]?
    let next ← finaltarget fuel code (i + 1)
    return code.set i
      (if code[next]? = some .iRet then .iJmp (rule - i) else .iCall (rule - i))
  | _ => some code

/-- The rules of a grammar only; no jump of theirs leaves them. -/
def correctcalls (fuel : Nat) (positions : List Nat) (code : List Instruction) :
    Option (List Instruction) :=
  (List.range code.length).foldlM (correctcall fuel positions) code

def rulePositions : Nat → List (List Instruction) → List Nat
  | _, [] => []
  | here, code :: codes => here :: rulePositions (here + code.length + 1) codes

def codegrammar (gen : Gen) (fuel : Nat) (rules : List Tree) : Option (List Instruction) := do
  let codes ← rules.mapM fun rule => gen rules rule false none fullset
  let code ← correctcalls fuel (rulePositions 0 codes) (codes.flatMap (· ++ [.iRet]))
  return .iCall 2 :: .iJmp (1 + code.length) :: code

/-- The number of a rule is in a byte. -/
def codecall (n : Nat) : Instruction := .iOpenCall (n % 256)

def followFirst (fuel : Nat) (rules : List Tree) (p₁ p₂ : Tree) (fl : Charset) : Option Charset :=
  if needfollow p₁ then (getfirst fuel rules p₂ fl).map Prod.fst else some fullset

def codeseq1 (gen : Gen) (fuel : Nat) (rules : List Tree) (p₁ p₂ : Tree)
    (tt : Option Instruction) (fl : Charset) :
    Option (List Instruction × Option Instruction) := do
  let fl₁ ← followFirst fuel rules p₁ p₂ fl
  let code ← gen rules p₁ false tt fl₁
  let len ← fixedlen fuel rules p₁
  return (code, if len = some 0 then tt else none)

def codegen : Nat → Gen
  | 0, _, _, _, _, _ => none
  | fuel + 1, rules, tree, opt, tt, fl =>
    match tree with
    | .char n => some [codechar n tt]
    | .any => some [.iAny]
    | .set st => some [codecharset st tt]
    | .true => some []
    | .false => some [.iFail]
    | .choice p q => codechoice (codegen fuel) fuel rules p q opt fl
    | .rep p => coderep (codegen fuel) fuel rules p opt fl
    | .behind n p => codebehind (codegen fuel) rules n p
    | .not p => codenot (codegen fuel) fuel rules p
    | .and p => codeand (codegen fuel) fuel rules p tt
    | .capture cap key p => codecapture (codegen fuel) fuel rules cap key p tt fl
    | .grammar rules' => codegrammar (codegen fuel) fuel rules'
    | .call n => some [codecall n]
    | .seq p q => do
      let (code₁, tt') ← codeseq1 (codegen fuel) fuel rules p q tt fl
      let code₂ ← codegen fuel rules q opt tt' fl
      return code₁ ++ code₂

/-- The label of an instruction that may jump, `IJmp` apart. -/
def Instruction.label : Instruction → Option Int
  | .iChoice offset | .iCall offset | .iCommit offset | .iPartialCommit offset => some offset
  | .iBackCommit offset | .iTestChar _ offset | .iTestSet _ offset | .iTestAny offset => some offset
  | _ => none

def Instruction.relabel : Instruction → Int → Instruction
  | .iChoice _, offset => .iChoice offset
  | .iCall _, offset => .iCall offset
  | .iCommit _, offset => .iCommit offset
  | .iPartialCommit _, offset => .iPartialCommit offset
  | .iBackCommit _, offset => .iBackCommit offset
  | .iTestChar aux _, offset => .iTestChar aux offset
  | .iTestSet buff _, offset => .iTestSet buff offset
  | .iTestAny _, offset => .iTestAny offset
  | other, _ => other

def optimizeLabel (fuel : Nat) (code : List Instruction) (i : Nat) : Option (List Instruction) :=
  match code[i]? with
  | some inst =>
    match inst.label with
    | some offset => do
      let final ← finaltarget fuel code (target i offset)
      return code.set i (inst.relabel (final - i))
    | none => some code
  | none => some code

/-- A jump becomes the instruction that it leads to, if that one jumps or ends. -/
def optimizeJump (fuel : Nat) (code : List Instruction) (i : Nat) : Option (List Instruction) := do
  let ft ← finaltarget fuel code i
  match code[ft]? with
  | some .iRet => return code.set i .iRet
  | some .iFail => return code.set i .iFail
  | some .iFailTwice => return code.set i .iFailTwice
  | some .iEnd => return code.set i .iEnd
  | some (.iCommit offset) =>
    let fft ← finaltarget fuel code (target ft offset)
    optimizeLabel fuel (code.set i (.iCommit (fft - i))) i
  | some (.iPartialCommit offset) =>
    let fft ← finaltarget fuel code (target ft offset)
    optimizeLabel fuel (code.set i (.iPartialCommit (fft - i))) i
  | some (.iBackCommit offset) =>
    let fft ← finaltarget fuel code (target ft offset)
    optimizeLabel fuel (code.set i (.iBackCommit (fft - i))) i
  | _ => return code.set i (.iJmp (ft - i))

def peepholeAt (fuel : Nat) (code : List Instruction) (i : Nat) : Option (List Instruction) :=
  match code[i]? with
  | some (.iJmp _) => optimizeJump fuel code i
  | _ => optimizeLabel fuel code i

def peephole (fuel : Nat) (code : List Instruction) : Option (List Instruction) :=
  (List.range code.length).foldlM (peepholeAt fuel) code

def compile (fuel : Nat) (tree : Tree) : Option (List Instruction) := do
  let code ← codegen fuel [] tree false none fullset
  peephole fuel (code ++ [.iEnd])

example : compile 9 (.rep .any) = some [.iSpan fullset, .iEnd] := by decide +kernel

-- The equations of the generator, made once for all the proofs about its parts.
section

attribute [local simp] codebehind choiceApart codechoice shortLen codeand codecapture coderep
  codenot finaltarget correctcall codegrammar codeseq1 codegen optimizeLabel optimizeJump

end

end Esp32Project.Lpeg
