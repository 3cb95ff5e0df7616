import Mathlib.Data.List.Basic

/-!
Weakest preconditions for a state monad that keeps a log beside its state and
never reads it.
-/

set_option autoImplicit false

namespace Esp32Project.Lib

/-- Whatever the log, `m` ends with a value and a state as `Q` says. -/
def wp {σ τ α : Type} (m : StateM (σ × List τ) α) (Q : α → σ → Prop) (s : σ) : Prop :=
  ∀ log, Q (m.run (s, log)).1 (m.run (s, log)).2.1

section

variable {σ τ α β : Type} {m : StateM (σ × List τ) α} {Q Q' : α → σ → Prop} {s : σ}

theorem wp_pure {a : α} (h : Q a s) : wp (pure a : StateM (σ × List τ) α) Q s := fun _ => h

theorem wp_bind {f : α → StateM (σ × List τ) β} {R : β → σ → Prop}
    (h : wp m (fun a s' => wp (f a) R s') s) : wp (m >>= f) R s :=
  fun log => h log (m.run (s, log)).2.2

theorem wp_mono (h : wp m Q s) (hq : ∀ a s', Q a s' → Q' a s') : wp m Q' s :=
  fun log => hq _ _ (h log)

theorem wp_seq {n : StateM (σ × List τ) β} {R : β → σ → Prop} (h : wp m Q s)
    (hn : ∀ a s', Q a s' → wp n R s') : wp (m >>= fun _ => n) R s :=
  wp_bind (wp_mono h hn)

/-- The invariant rule for a loop over `a`, ..., `a + n - 1`. -/
theorem wp_range {f : Nat → StateM (σ × List τ) PUnit} (I : Nat → σ → Prop) {a n : Nat}
    (hstep : ∀ k < n, ∀ s, I k s → wp (f (a + k)) (fun _ => I (k + 1)) s) (h₀ : I 0 s) :
    wp ((List.range' a n).forM f) (fun _ => I n) s := by
  induction n generalizing a I s with
  | zero => exact wp_pure h₀
  | succ n ih =>
    rw [List.range'_succ]
    change wp (f a >>= fun _ => (List.range' (a + 1) n).forM f) _ _
    refine wp_seq (hstep 0 (Nat.succ_pos n) s h₀) fun _ s' h' => ?_
    refine ih (fun k => I (k + 1)) (fun k hk t ht => ?_) h'
    have := hstep (k + 1) (Nat.succ_lt_succ hk) t ht
    rwa [show a + (k + 1) = a + 1 + k by omega] at this

/-- What every step keeps, the whole program keeps: here without regard to values. -/
def Keeps {ρ : Type} (I : ρ → Prop) (m : StateM ρ α) : Prop := ∀ s, I s → I (m.run s).2

section

variable {ρ : Type} {I : ρ → Prop}

theorem keeps_pure (a : α) : Keeps I (pure a : StateM ρ α) := fun _ h => h

theorem keeps_bind {m : StateM ρ α} {f : α → StateM ρ β} (hm : Keeps I m)
    (hf : ∀ a, Keeps I (f a)) : Keeps I (m >>= f) := fun s h => hf _ _ (hm s h)

theorem keeps_forM {f : Nat → StateM ρ PUnit} (hf : ∀ i, Keeps I (f i)) (l : List Nat) :
    Keeps I (l.forM f) := by
  induction l with
  | nil => exact keeps_pure _
  | cons a l ih =>
    change Keeps I (f a >>= fun _ => l.forM f)
    exact keeps_bind (hf a) fun _ => ih

end

end

end Esp32Project.Lib
