import Esp32Project.Lib.Machine
import Esp32Project.Lpeg.Meaning

/-!
The instructions of LPeg and the loop of `match`. An instruction is one element
of the code, with its charset or its offset, and offsets count elements.
-/

set_option autoImplicit false

namespace Esp32Project.Lpeg
open Esp32Project.Lib

inductive Instruction where
  | iAny
  | iChar (aux : UInt8)
  | iSet (buff : Charset)
  | iTestAny (offset : Int)
  | iTestChar (aux : UInt8) (offset : Int)
  | iTestSet (buff : Charset) (offset : Int)
  | iSpan (buff : Charset)
  | iBehind (aux : Nat)
  | iRet
  | iEnd
  | iChoice (offset : Int)
  | iJmp (offset : Int)
  | iCall (offset : Int)
  | iOpenCall (key : Nat)
  | iCommit (offset : Int)
  | iPartialCommit (offset : Int)
  | iBackCommit (offset : Int)
  | iFailTwice
  | iFail
  | iFullCapture (kind key off : Nat)
  | iOpenCapture (kind key : Nat)
  | iCloseCapture
deriving DecidableEq

def target (p : Nat) (offset : Int) : Nat := (p + offset).toNat

/-- An entry of the stack: a choice to come back to, or the return from a rule. -/
inductive Frame where
  | choice (p s caplevel : Nat)
  | call (p : Nat)
deriving DecidableEq

/-- At an instruction, at the label `fail`, or with a result. -/
inductive State where
  | run (p s : Nat) (stack : List Frame) (capture : List Capture)
  | fail (stack : List Frame) (capture : List Capture)
  | done (r : Option Match)
deriving DecidableEq

def atChar (subject : List UInt8) (s : Nat) (member : UInt8 → Bool) : Bool :=
  match subject[s]? with
  | some c => member c
  | none => false

/-- `ICloseCapture`: the last entry becomes a full capture, or an entry closes an earlier one. -/
def closeCapture (s : Nat) (capture : List Capture) : Option (List Capture) :=
  match capture.getLast? with
  | none => none
  | some c =>
    if c.siz = 0 ∧ s - c.s < 255 then some (capture.dropLast ++ [{ c with siz := s - c.s + 1 }])
    else some (capture ++ [⟨s, 0, cclose, 1⟩])

/-- A turn of the loop on a stack with room. The entry for `giveup` is the end of the stack; where
there is no entry to take, or one of the wrong kind, there is no successor. -/
def turn (code : List Instruction) (subject : List UInt8) : State → Option State
  | .done _ => none
  | .fail stack capture =>
    match stack with
    | [] => some (.done none)
    | .call _ :: stack => some (.fail stack capture)
    | .choice p s caplevel :: stack => some (.run p s stack (capture.take caplevel))
  | .run p s stack capture =>
    match code[p]? with
    | none => none
    | some (.iEnd) => some (.done (some (s, capture)))
    | some (.iRet) =>
      match stack with
      | .call p :: stack | .choice p _ _ :: stack => some (.run p s stack capture)
      | [] => some (.done none)
    | some (.iAny) =>
      if atChar subject s fun _ => true then some (.run (p + 1) (s + 1) stack capture)
      else some (.fail stack capture)
    | some (.iTestAny offset) =>
      if atChar subject s fun _ => true then some (.run (p + 1) s stack capture)
      else some (.run (target p offset) s stack capture)
    | some (.iChar aux) =>
      if atChar subject s (· = aux) then some (.run (p + 1) (s + 1) stack capture)
      else some (.fail stack capture)
    | some (.iTestChar aux offset) =>
      if atChar subject s (· = aux) then some (.run (p + 1) s stack capture)
      else some (.run (target p offset) s stack capture)
    | some (.iSet buff) =>
      if atChar subject s (testchar buff) then some (.run (p + 1) (s + 1) stack capture)
      else some (.fail stack capture)
    | some (.iTestSet buff offset) =>
      if atChar subject s (testchar buff) then some (.run (p + 1) s stack capture)
      else some (.run (target p offset) s stack capture)
    | some (.iBehind n) =>
      if n > s then some (.fail stack capture) else some (.run (p + 1) (s - n) stack capture)
    | some (.iSpan buff) =>
      some (.run (p + 1) (s + ((subject.drop s).takeWhile (testchar buff)).length) stack capture)
    | some (.iJmp offset) => some (.run (target p offset) s stack capture)
    | some (.iChoice offset) =>
      some (.run (p + 1) s (.choice (target p offset) s capture.length :: stack) capture)
    | some (.iCall offset) => some (.run (target p offset) s (.call (p + 1) :: stack) capture)
    | some (.iOpenCall _) => none
    | some (.iCommit offset) =>
      match stack with
      | .choice _ _ _ :: stack => some (.run (target p offset) s stack capture)
      | _ => none
    | some (.iPartialCommit offset) =>
      match stack with
      | .choice q _ _ :: stack =>
        some (.run (target p offset) s (.choice q s capture.length :: stack) capture)
      | _ => none
    | some (.iBackCommit offset) =>
      match stack with
      | .choice _ s caplevel :: stack =>
        some (.run (target p offset) s stack (capture.take caplevel))
      | _ => none
    | some (.iFailTwice) =>
      match stack with
      | _ :: stack => some (.fail stack capture)
      | [] => none
    | some (.iFail) => some (.fail stack capture)
    | some (.iFullCapture kind key off) =>
      some (.run (p + 1) s stack (capture ++ [⟨s - off, key, kind, off + 1⟩]))
    | some (.iOpenCapture kind key) =>
      some (.run (p + 1) s stack (capture ++ [⟨s, key, kind, 0⟩]))
    | some (.iCloseCapture) => (closeCapture s capture).map (.run (p + 1) s stack ·)

example : turn [.iAny] [97] (.run 0 0 [] []) = some (.run 1 1 [] []) := by decide +kernel

/-- The result of `match` from a position of the subject, on a stack that never fills up. -/
def Matches (code : List Instruction) (subject : List UInt8) (init : Nat) (r : Option Match) :
    Prop :=
  Steps (turn code subject) (.run 0 init [] []) (.done r)

/-- The size that `match` begins with. -/
def maxback : Nat := 400

/-- `doublestack`, from the size of the stack to its next one, under the limit that
`lpeg.setmaxstack` sets. -/
def doublestack (maxstack n : Nat) : Option Nat :=
  if n ≥ maxstack then none else some (min (2 * n) maxstack)

/-- The entries of the stack, the one for `giveup` among them. -/
def State.entries : State → Nat
  | .run _ _ stack _ | .fail stack _ => stack.length + 1
  | .done _ => 0

/-- The instructions that ask for room first. -/
def pushes (code : List Instruction) : State → Bool
  | .run p _ _ _ =>
    match code[p]? with
    | some (.iChoice _) | some (.iCall _) => true
    | _ => false
  | .fail _ _ | .done _ => false

/-- `match` with the size of its stack, or the error that `doublestack` raises. -/
inductive Vm where
  | running (state : State) (stacklimit : Nat)
  | overflow
deriving DecidableEq

def step (maxstack : Nat) (code : List Instruction) (subject : List UInt8) : Vm → Option Vm
  | .overflow => none
  | .running state stacklimit =>
    if pushes code state && state.entries == stacklimit then
      match doublestack maxstack stacklimit with
      | none => some .overflow
      | some stacklimit => (turn code subject state).map (.running · stacklimit)
    else (turn code subject state).map (.running · stacklimit)

def Vm.start (init : Nat) : Vm := .running (.run 0 init [] []) maxback

def Returns (maxstack : Nat) (code : List Instruction) (subject : List UInt8) (init : Nat)
    (r : Option Match) : Prop :=
  ∃ stacklimit, Steps (step maxstack code subject) (.start init) (.running (.done r) stacklimit)

def Overflows (maxstack : Nat) (code : List Instruction) (subject : List UInt8)
    (init : Nat) : Prop :=
  Steps (step maxstack code subject) (.start init) .overflow

/-- What the match puts on the stack never needs more than the limit, or than the initial size. -/
def StackFits (maxstack : Nat) (code : List Instruction) (subject : List UInt8)
    (init : Nat) : Prop :=
  ∀ state, Steps (turn code subject) (.run 0 init [] []) state →
    state.entries ≤ max maxback maxstack

-- The equations of a turn, made once for all the proofs that run the code.
section

attribute [local simp] closeCapture turn

end

end Esp32Project.Lpeg
