import Esp32Project.Lib.Reach
import Esp32Project.Task.Queues

/-!
The pump of task.c against posts from any number of tasks. Every access to a
queue or to the semaphore is a step of its own; so is the test of `pending`.
-/

set_option autoImplicit false

namespace Esp32Project.Task
open Esp32Project.Lib

/-- Where a task is in `task_post`. A sent event is known by its priority and
its place among the events sent there; none stands for a full queue. -/
inductive Poster where
  | out (res : Option (Nat × Nat))
  | sending (priority : Nat) (ev : Event)
  | sent (res : Option (Nat × Nat))
  | giving (res : Option (Nat × Nat))

/-- Where the pump is. `made` stands between the two halves of
`vSemaphoreCreateBinary`, `scan pr` has `pr` priorities left to poll, and
`scan 0` is in `xSemaphoreTake`. -/
inductive PumpAt where
  | boot
  | made
  | scan (pr : Nat)
  | hand (priority : Nat) (ev : Event)

/-- `pending` is null or holds a count of 0 or 1. Of every priority, `posted`
and `dispatched` list the events in order; `found` lists the priorities found
empty since the scan began. -/
structure Sched (τ : Type) where
  taskQ : Queues
  pending : Option Bool
  pump : PumpAt
  posters : τ → Poster
  posted : Nat → List Event
  dispatched : Nat → List Event
  found : List Nat

inductive Act (τ : Type) where
  | initHandler (priority qlen : Nat) (made : Bool)
  | post (t : τ) (priority handle : Nat) (param : Int)
  | poster (t : τ)
  | pump (made : Bool)

section

variable {τ : Type}

def Sched.init : Sched τ :=
  ⟨fun _ => none, none, .boot, fun _ => .out none, fun _ => [], fun _ => [], []⟩

variable [DecidableEq τ]

def Sched.setPoster (s : Sched τ) (t : τ) (p : Poster) : Sched τ :=
  { s with posters := Function.update s.posters t p }

/-- `task_post` of one task, a step at a time. -/
def posterStep (s : Sched τ) (t : τ) : Option (Sched τ) :=
  match s.posters t with
  | .out _ => none
  | .sending priority ev =>
    match s.taskQ priority with
    | none => none
    | some q =>
      match q.sendToBack ev with
      | (true, q) =>
        some { s.setPoster t (.sent (some (priority, (s.posted priority).length))) with
          taskQ := Function.update s.taskQ priority (some q)
          posted := Function.update s.posted priority (s.posted priority ++ [ev]) }
      | (false, _) => some (s.setPoster t (.sent none))
  | .sent res =>
    match s.pending with
    | some _ => some (s.setPoster t (.giving res))
    | none => some (s.setPoster t (.out res))
  | .giving res => some { s.setPoster t (.out res) with pending := s.pending.map fun _ => true }

/-- `task_pump_messages`, a step at a time. -/
def pumpStep (s : Sched τ) (made : Bool) : Option (Sched τ) :=
  match s.pump with
  | .boot =>
    if made then some { s with pending := some false, pump := .made }
    else some { s with pump := .scan taskPriorityCount }
  | .made => some { s with pending := some true, pump := .scan taskPriorityCount }
  | .scan (p + 1) =>
    match (s.taskQ p).bind Queue.receive with
    | some (ev, q) =>
      some { s with taskQ := Function.update s.taskQ p (some q), pump := .hand p ev }
    | none => some { s with pump := .scan p, found := p :: s.found }
  | .scan 0 =>
    match s.pending with
    | some true =>
      some { s with pending := some false, pump := .scan taskPriorityCount, found := [] }
    | _ => none
  | .hand p ev =>
    some { s with
      pump := .scan taskPriorityCount
      dispatched := Function.update s.dispatched p (s.dispatched p ++ [ev])
      found := [] }

def schedStep (s : Sched τ) : Act τ → Option (Sched τ)
  | .initHandler priority qlen made =>
    some { s with taskQ := (taskInitHandler made s.taskQ priority qlen).2 }
  | .post t priority handle param =>
    match s.posters t with
    | .out _ =>
      if postable s.taskQ priority handle then
        some (s.setPoster t (.sending priority ⟨handle, param⟩))
      else some (s.setPoster t (.out none))
    | _ => none
  | .poster t => posterStep s t
  | .pump made => pumpStep s made

end

section

variable {τ : Type}

/-! What is to be shown. -/

def Sched.inHand (s : Sched τ) (p : Nat) : List Event :=
  match s.pump with
  | .hand p' ev => if p' = p then [ev] else []
  | _ => []

def Queued (s : Sched τ) (p k : Nat) : Prop :=
  (s.posted p).length ≤ k + (s.taskQ.waiting p).length ∧ k < (s.posted p).length

def Posting (s : Sched τ) (p k : Nat) : Prop :=
  ∃ t, s.posters t = .sent (some (p, k)) ∨ s.posters t = .giving (some (p, k))

def Blocked (s : Sched τ) : Prop := s.pump = .scan 0 ∧ s.pending = some false

/-- Every event is dispatched at most once and in the order of its priority,
no event is taken before a more urgent one, and the pump does not sleep on an
event whose post has returned. -/
structure PumpOk (s : Sched τ) : Prop where
  inOrder : ∀ p, s.posted p = s.dispatched p ++ s.inHand p ++ s.taskQ.waiting p
  urgent : ∀ p ev, s.pump = .hand p ev → ∀ q, p < q → q < taskPriorityCount → q ∈ s.found
  awake : Blocked s → ∀ p k, Queued s p k → Posting s p k

end

end Esp32Project.Task
