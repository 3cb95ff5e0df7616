import Mathlib.Data.List.Basic

/-! A first-in first-out queue of bounded length that makes room by dropping its oldest entries. -/

set_option autoImplicit false

namespace Esp32Project.Lib.LossyQueue

variable {α : Type}

/-- Append `x`, and drop from the front what exceeds the capacity. -/
def push (n : Nat) (q : List α) (x : α) : List α :=
  (q ++ [x]).drop (q.length + 1 - n)

/-- A queue being filled and emptied: what it holds and what it gave out. -/
structure State (α : Type) where
  pending : List α
  given : List α

inductive Op (α : Type) where
  | put : α → Op α
  | get : Op α
  deriving DecidableEq, Repr

def step (n : Nat) (s : State α) : Op α → State α
  | .put x => { s with pending := push n s.pending x }
  | .get => ⟨s.pending.tail, s.given ++ s.pending.head?.toList⟩

def run (n : Nat) (ops : List (Op α)) : State α := ops.foldl (step n) ⟨[], []⟩

def puts (ops : List (Op α)) : List α :=
  ops.flatMap fun
    | .put x => [x]
    | .get => []

theorem push_of_lt {n : Nat} {q : List α} (x : α) (h : q.length < n) : push n q x = q ++ [x] := by
  rw [push, Nat.sub_eq_zero_of_le h, List.drop_zero]

theorem push_sublist (n : Nat) (q : List α) (x : α) : (push n q x).Sublist (q ++ [x]) :=
  List.drop_sublist _ _

/-- What was given out and what is pending was put in, in this order and each once. -/
theorem run_sublist (n : Nat) (ops : List (Op α)) :
    ((run n ops).given ++ (run n ops).pending).Sublist (puts ops) := by
  have hstep : ∀ (ops : List (Op α)) (s : State α) (l : List α),
      (s.given ++ s.pending).Sublist l →
      ((ops.foldl (step n) s).given ++ (ops.foldl (step n) s).pending).Sublist (l ++ puts ops) := by
    intro ops
    induction ops with
    | nil => intro s l h; simpa [puts] using h
    | cons op ops ih =>
      intro s l h
      cases op with
      | put x =>
        have hl := ih (step n s (.put x)) (l ++ [x]) ?_
        · simpa [puts] using hl
        · have hp := (push_sublist n s.pending x).append_left s.given
          exact hp.trans (by simpa using h.append_right [x])
      | get =>
        refine ih (step n s .get) l ?_
        cases hq : s.pending with
        | nil => simpa [step, hq] using h
        | cons y ys => simpa [step, hq] using h
  simpa [run] using hstep ops ⟨[], []⟩ [] (by simp)

end Esp32Project.Lib.LossyQueue
