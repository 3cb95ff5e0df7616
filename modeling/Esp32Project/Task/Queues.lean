import Mathlib.Logic.Function.Basic

/-! The event queues of task.c: one FreeRTOS queue for a priority, made on demand. -/

set_option autoImplicit false

namespace Esp32Project.Task

def taskPriorityCount : Nat := 3

def taskDefaultQueueLen : Nat := 8

def taskHandleMoniker : Nat := 0x68680000

def taskHandleMask : Nat := 0xFFF80000

/-- `~TASK_HANDLE_MASK`. -/
def taskHandleUnmask : Nat := 0x0007FFFF

structure Event where
  sig : Nat
  par : Int
  deriving DecidableEq, Repr

/-- A queue of `len` places, the oldest event first. -/
structure Queue where
  len : Nat
  items : List Event
  deriving DecidableEq, Repr

/-- `xQueueSendToBackFromISR`. -/
def Queue.sendToBack (q : Queue) (ev : Event) : Bool × Queue :=
  if q.items.length < q.len then (true, { q with items := q.items ++ [ev] }) else (false, q)

/-- `xQueueReceive` without waiting. -/
def Queue.receive (q : Queue) : Option (Event × Queue) :=
  match q.items with
  | [] => none
  | ev :: rest => some (ev, { q with items := rest })

abbrev Queues := Nat → Option Queue

/-- `task_init_handler`; `made` is whether `xQueueCreate` finds the memory. -/
def taskInitHandler (made : Bool) (taskQ : Queues) (priority qlen : Nat) : Bool × Queues :=
  if priority ≥ taskPriorityCount then (false, taskQ)
  else match taskQ priority with
    | none =>
      if made then (true, Function.update taskQ priority (some ⟨qlen, []⟩)) else (false, taskQ)
    | some _ => (false, taskQ)

/-- What `task_post` checks before it sends. -/
def postable (taskQ : Queues) (priority handle : Nat) : Bool :=
  priority < taskPriorityCount && (taskQ priority).isSome &&
    handle &&& taskHandleMask == taskHandleMoniker

def Queues.waiting (taskQ : Queues) (p : Nat) : List Event :=
  ((taskQ p).map Queue.items).getD []

section

variable {made : Bool} {taskQ : Queues} {priority qlen p : Nat} {q : Queue}

theorem waiting_some (h : taskQ p = some q) : taskQ.waiting p = q.items := by
  rw [Queues.waiting, h]
  rfl

theorem waiting_none (h : taskQ p = none) : taskQ.waiting p = [] := by
  rw [Queues.waiting, h]
  rfl

theorem waiting_update (q : Queue) (p' : Nat) :
    Queues.waiting (Function.update taskQ p (some q)) p' =
      if p' = p then q.items else taskQ.waiting p' := by
  unfold Queues.waiting
  by_cases hp : p' = p
  · rw [if_pos hp, hp, Function.update_self]
    rfl
  · rw [if_neg hp, Function.update_of_ne hp]

theorem isSome_update {p' : Nat} (h : (taskQ p').isSome = true) :
    (Function.update taskQ p (some q) p').isSome = true := by
  by_cases hp : p' = p
  · rw [hp, Function.update_self]
    rfl
  · rwa [Function.update_of_ne hp]

theorem taskInitHandler_cases (made : Bool) (taskQ : Queues) (priority qlen : Nat) :
    taskInitHandler made taskQ priority qlen = (false, taskQ) ∨
      priority < taskPriorityCount ∧ taskQ priority = none ∧
        taskInitHandler made taskQ priority qlen =
          (true, Function.update taskQ priority (some ⟨qlen, []⟩)) := by
  unfold taskInitHandler
  by_cases hp : priority ≥ taskPriorityCount
  · exact .inl (if_pos hp)
  · rw [if_neg hp]
    cases hq : taskQ priority with
    | some _ => exact .inl rfl
    | none =>
      cases made with
      | false => exact .inl rfl
      | true => exact .inr ⟨Nat.lt_of_not_le hp, rfl, rfl⟩

theorem taskInitHandler_kept (made : Bool) (priority qlen : Nat) (h : taskQ p = some q) :
    (taskInitHandler made taskQ priority qlen).2 p = some q := by
  rcases taskInitHandler_cases made taskQ priority qlen with he | ⟨_, hn, he⟩
  · rwa [he]
  · have hne : p ≠ priority := fun hp => by simp [hp, hn] at h
    simp only [he, Function.update_of_ne hne, h]

theorem taskInitHandler_made (made : Bool) (taskQ : Queues) (priority qlen : Nat)
    (h : (taskInitHandler made taskQ priority qlen).1 = true) :
    (taskInitHandler made taskQ priority qlen).2 priority = some ⟨qlen, []⟩ := by
  rcases taskInitHandler_cases made taskQ priority qlen with he | ⟨_, _, he⟩
  · rw [he] at h
    cases h
  · simp only [he, Function.update_self]

theorem taskInitHandler_waiting :
    (taskInitHandler made taskQ priority qlen).2.waiting p = taskQ.waiting p := by
  rcases taskInitHandler_cases made taskQ priority qlen with he | ⟨_, hn, he⟩
  · rw [he]
  · rw [he, waiting_update]
    split
    · rename_i hp
      rw [hp, waiting_none hn]
    · rfl

theorem taskInitHandler_bounded
    (h : ((taskInitHandler made taskQ priority qlen).2 p).isSome = true) :
    (taskQ p).isSome = true ∨ p < taskPriorityCount := by
  rcases taskInitHandler_cases made taskQ priority qlen with he | ⟨hlt, _, he⟩
  · rw [he] at h
    exact .inl h
  · rw [he] at h
    by_cases hp : p = priority
    · exact .inr (hp ▸ hlt)
    · exact .inl (by simpa only [Function.update_of_ne hp] using h)

end

end Esp32Project.Task
