import Esp32Project.Lib.Reach
import Esp32Project.Task.Queues
import Mathlib.Algebra.Group.Nat.Defs
import Mathlib.Data.List.Nodup

/-!
Registration and dispatch of task.c. The callback table is a heap block whose
cells are what `task_get_id` stored, zeros, or whatever the allocator left.
-/

set_option autoImplicit false

namespace Esp32Project.Task
open Esp32Project.Lib

inductive Cell (α : Type) where
  | fn (t : α)
  | zero
  | junk
  deriving DecidableEq, Repr

/-- `given` collects what `task_get_id` has returned, with the callback it was
called for. -/
structure Tasks (α : Type) where
  taskQ : Queues
  taskFunc : Option (List (Cell α))
  taskCount : Nat
  given : List (Nat × α)

/-- The allocator's answers in one call: for the queue of a priority, and for
the table. -/
structure Answers where
  queue : Nat → Bool
  table : Bool

def taskHandleAllocationBrick : Nat := 4

section

variable {α : Type}

def init : Tasks α := ⟨fun _ => none, none, 0, []⟩

/-- `realloc` to `n` cells. On failure the caller has the null pointer only. -/
def reallocCells (ok : Bool) (old : Option (List (Cell α))) (n : Nat) :
    Option (List (Cell α)) :=
  let cells := old.getD []
  if ok then some (cells.take n ++ List.replicate (n - cells.length) .junk) else none

/-- `memset` to zero of `n` cells from `i` on. -/
def clearCells (cells : List (Cell α)) (i n : Nat) : List (Cell α) :=
  cells.take i ++ List.replicate n .zero ++ cells.drop (i + n)

/-- The queues that `task_get_id` makes, in its order. -/
def initQueues (made : Nat → Bool) : List Nat → Queues → Bool × Queues
  | [], taskQ => (true, taskQ)
  | p :: ps, taskQ =>
    match taskQ p with
    | some _ => initQueues made ps taskQ
    | none =>
      match taskInitHandler (made p) taskQ p taskDefaultQueueLen with
      | (true, taskQ) => initQueues made ps taskQ
      | (false, taskQ) => (false, taskQ)

/-- `task_get_id`. No result means a store through a null pointer or behind the block. -/
def taskGetId (a : Answers) (s : Tasks α) (t : α) : Option (Nat × Tasks α) :=
  match initQueues a.queue (List.range taskPriorityCount) s.taskQ with
  | (false, taskQ) => some (0, { s with taskQ := taskQ })
  | (true, taskQ) =>
    let grow := s.taskCount % taskHandleAllocationBrick = 0
    let taskFunc :=
      if grow then
        (reallocCells a.table s.taskFunc (s.taskCount + taskHandleAllocationBrick)).map
          (clearCells · s.taskCount taskHandleAllocationBrick)
      else s.taskFunc
    match taskFunc with
    | none => if grow then some (0, { s with taskQ := taskQ, taskFunc := none }) else none
    | some cells =>
      if s.taskCount < cells.length then
        let handle := taskHandleMoniker ||| s.taskCount
        some (handle, ⟨taskQ, some (cells.set s.taskCount (.fn t)), s.taskCount + 1,
          s.given ++ [(handle, t)]⟩)
      else none

/-- `task_post`, for one caller at a time. -/
def taskPost (s : Tasks α) (priority handle : Nat) (param : Int) : Bool × Tasks α :=
  if postable s.taskQ priority handle then
    match s.taskQ priority with
    | some q =>
      let (res, q) := q.sendToBack ⟨handle, param⟩
      (res, { s with taskQ := Function.update s.taskQ priority (some q) })
    | none => (false, s)
  else (false, s)

/-- `next_event`, with `pr` priorities left to poll. -/
def nextEvent (taskQ : Queues) : Nat → Option (Event × Nat × Queues)
  | 0 => none
  | p + 1 =>
    match (taskQ p).bind Queue.receive with
    | some (ev, q) => some (ev, p, Function.update taskQ p (some q))
    | none => nextEvent taskQ p

/-- `dispatch`: the cell that is called, if any. -/
def dispatch (s : Tasks α) (sig : Nat) : Option (Cell α) :=
  if sig &&& taskHandleMask = taskHandleMoniker then
    let entry := (sig &&& taskHandleUnmask) % 2 ^ 16
    match s.taskFunc with
    | some cells => if entry < s.taskCount then some (cells[entry]?.getD .junk) else none
    | none => none
  else none

inductive Call (α : Type) where
  | getId (t : α) (a : Answers)
  | post (priority handle : Nat) (param : Int)
  /-- One round of `task_pump_messages`. -/
  | pump

def step (s : Tasks α) : Call α → Option (Tasks α)
  | .getId t a => (taskGetId a s t).map Prod.snd
  | .post priority handle param => some (taskPost s priority handle param).2
  | .pump =>
    match nextEvent s.taskQ taskPriorityCount with
    | some (_, _, taskQ) => some { s with taskQ := taskQ }
    | none => some s

end

end Esp32Project.Task
