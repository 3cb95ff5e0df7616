import Mathlib.Logic.Relation

/-!
Machines whose states have at most one successor. States that come to a common
state have the same results, so code is related to code through `Meets`.
-/

set_option autoImplicit false

namespace Esp32Project.Lib

section

variable {σ : Type} {step : σ → Option σ} {a b c : σ}

def Steps (step : σ → Option σ) : σ → σ → Prop :=
  Relation.ReflTransGen fun a b => step a = some b

/-- Two states that come to a common one. -/
def Meets (step : σ → Option σ) : σ → σ → Prop :=
  Relation.Join (Steps step)

theorem meets_equivalence : Equivalence (Meets step) := by
  refine Relation.equivalence_join_reflTransGen fun a b c hb hc => ?_
  obtain rfl : b = c := Option.some.inj (hb.symm.trans hc)
  exact ⟨b, .refl, .refl⟩

theorem Meets.refl : Meets step a a := meets_equivalence.refl a

theorem Meets.symm (h : Meets step a b) : Meets step b a := meets_equivalence.symm h

theorem Meets.trans (h : Meets step a b) (h' : Meets step b c) : Meets step a c :=
  meets_equivalence.trans h h'

theorem Meets.of_step (h : step a = some b) : Meets step a b :=
  ⟨b, .single h, .refl⟩

theorem Meets.head (h : step a = some b) (hb : Meets step b c) : Meets step a c :=
  (Meets.of_step h).trans hb

theorem Meets.steps (h : Meets step a b) (hb : step b = none) : Steps step a b := by
  obtain ⟨c, hac, hbc⟩ := h
  cases hbc.cases_head with
  | inl heq => exact heq ▸ hac
  | inr hnext =>
    obtain ⟨d, hd, -⟩ := hnext
    rw [hb] at hd
    cases hd

/-- On the way to a state without a successor there is no other way. -/
theorem Steps.onward (hb : Steps step a b) (hc : Steps step a c) (hcn : step c = none) :
    Steps step b c := by
  have hmeets : Meets step b c := (Meets.symm ⟨b, hb, .refl⟩).trans ⟨c, hc, .refl⟩
  exact hmeets.steps hcn

theorem Steps.halted_unique (hb : Steps step a b) (hc : Steps step a c) (hbn : step b = none)
    (hcn : step c = none) : b = c := by
  have hmeets : Meets step b c := (Meets.symm ⟨b, hb, .refl⟩).trans ⟨c, hc, .refl⟩
  obtain ⟨d, hbd, hcd⟩ := hmeets
  have stays {x y : σ} (hx : step x = none) (hxy : Steps step x y) : x = y := by
    cases hxy.cases_head with
    | inl heq => exact heq
    | inr hnext =>
      obtain ⟨z, hz, -⟩ := hnext
      rw [hx] at hz
      cases hz
  rw [stays hbn hbd, stays hcn hcd]

/-- A machine that answers each step of another one, with none or some of its own, follows it. -/
theorem Steps.follows {τ : Type} {step' : τ → Option τ} {R : σ → τ → Prop} {b' : τ}
    (h : Steps step a c) (hstart : R a b')
    (hstep : ∀ a a' b, R a b → step a = some a' → ∃ b', Steps step' b b' ∧ R a' b') :
    ∃ d, Steps step' b' d ∧ R c d := by
  induction h with
  | refl => exact ⟨b', .refl, hstart⟩
  | tail _ hlast ih =>
    obtain ⟨d, hd, hrel⟩ := ih
    obtain ⟨d', hd', hrel'⟩ := hstep _ _ d hrel hlast
    exact ⟨d', hd.trans hd', hrel'⟩

end

end Esp32Project.Lib
