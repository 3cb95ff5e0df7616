import Mathlib.Logic.Function.Basic
import Mathlib.Data.List.Basic

/-!
Null-terminated chains threaded through a `next` field, with `none` as the null
pointer.
-/

set_option autoImplicit false

namespace Esp32Project.Lib

/-- Following `next` from `p` visits exactly the nodes of the list, in order. -/
def Chain {α : Type} (next : α → Option α) : Option α → List α → Prop
  | p, [] => p = none
  | p, c :: l => p = some c ∧ Chain next (next c) l

section

variable {α : Type} {next next' : α → Option α} {p : Option α} {l l' : List α}

@[simp] theorem chain_nil : Chain next p [] ↔ p = none := Iff.rfl

@[simp] theorem chain_cons {c : α} :
    Chain next p (c :: l) ↔ p = some c ∧ Chain next (next c) l := Iff.rfl

theorem Chain.congr (h : Chain next p l) (he : ∀ c ∈ l, next' c = next c) :
    Chain next' p l := by
  induction l generalizing p with
  | nil => exact h
  | cons c l ih =>
    refine ⟨h.1, ?_⟩
    rw [he c (by simp)]
    exact ih h.2 (fun d hd => he d (by simp [hd]))

theorem Chain.exists_cons {c : α} (h : Chain next p l) (hp : p = some c) :
    ∃ rest, l = c :: rest ∧ Chain next (next c) rest := by
  cases l with
  | nil =>
    rw [chain_nil] at h
    simp [h] at hp
  | cons d rest =>
    have hd : d = c := by simpa [hp] using h.1.symm
    subst hd
    exact ⟨rest, rfl, h.2⟩

end

end Esp32Project.Lib
