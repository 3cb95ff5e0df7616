import Mathlib.Data.Option.Basic
import Mathlib.Data.List.Basic

/-!
Runs of a partial deterministic system. The label of a step carries every
choice that the environment makes, so a step has at most one successor.
A step without a successor is one that the program leaves undefined, or a
call that never returns.
-/

set_option autoImplicit false

namespace Esp32Project.Lib

/-- States reached from `s₀` when every step meets the guard. -/
inductive Reach {σ α : Type} (step : σ → α → Option σ) (ok : σ → α → Prop)
    (s₀ : σ) : σ → Prop where
  | start : Reach step ok s₀ s₀
  | next {s s' : σ} {a : α} :
      Reach step ok s₀ s → ok s a → step s a = some s' → Reach step ok s₀ s'

section

variable {σ α : Type} {step : σ → α → Option σ} {ok ok' : σ → α → Prop} {s₀ s : σ}

theorem Reach.invariant (I : σ → Prop) (h₀ : I s₀)
    (hstep : ∀ s a s', I s → ok s a → step s a = some s' → I s')
    (h : Reach step ok s₀ s) : I s := by
  induction h with
  | start => exact h₀
  | next _ hok hs ih => exact hstep _ _ _ ih hok hs

theorem Reach.mono (hg : ∀ s a, ok s a → ok' s a) (h : Reach step ok s₀ s) :
    Reach step ok' s₀ s := by
  induction h with
  | start => exact .start
  | next _ hok hs ih => exact .next ih (hg _ _ hok) hs

/-- Execute a script, stopping at the first step that its guard refuses. -/
def runScript (step : σ → α → Option σ) (ok : σ → α → Bool) : σ → List α → Option σ
  | s, [] => some s
  | s, a :: as => if ok s a then (step s a).bind (runScript step ok · as) else none

theorem Reach.append_script {okb : σ → α → Bool} {as : List α} {t : σ}
    (hs : Reach step (fun s a => okb s a = true) s₀ s)
    (h : runScript step okb s as = some t) :
    Reach step (fun s a => okb s a = true) s₀ t := by
  induction as generalizing s with
  | nil =>
    simp only [runScript, Option.some.injEq] at h
    exact h ▸ hs
  | cons a as ih =>
    unfold runScript at h
    split at h
    · rename_i hok
      obtain ⟨u, hu, hrest⟩ := Option.bind_eq_some_iff.mp h
      exact ih (.next hs hok hu) hrest
    · cases h

/-- `P` holds of every step of a run, up to one without a successor. -/
def Along (step : σ → α → Option σ) (P : σ → α → Prop) : σ → List α → Prop
  | _, [] => True
  | s, a :: as => P s a ∧ ∀ s', step s a = some s' → Along step P s' as

/-- Two properties of steps that agree where the invariant holds agree over whole runs. -/
theorem along_iff {P Q : σ → α → Prop} (I : σ → Prop) (hiff : ∀ s a, I s → (P s a ↔ Q s a))
    (hstep : ∀ s a s', I s → Q s a → step s a = some s' → I s') (h : I s) (as : List α) :
    Along step P s as ↔ Along step Q s as := by
  induction as generalizing s with
  | nil => exact Iff.rfl
  | cons a as ih =>
    constructor
    · rintro ⟨hp, hrest⟩
      have hq := (hiff s a h).mp hp
      exact ⟨hq, fun s' hs => (ih (hstep s a s' h hq hs)).mp (hrest s' hs)⟩
    · rintro ⟨hq, hrest⟩
      exact ⟨(hiff s a h).mpr hq, fun s' hs => (ih (hstep s a s' h hq hs)).mpr (hrest s' hs)⟩

/-- A run whose steps all meet the guard, under which a step does as it should. -/
theorem Along.of_guard {P Q : σ → α → Prop} (I : σ → Prop) (hdoes : ∀ s a, I s → Q s a → P s a)
    (hstep : ∀ s a s', I s → Q s a → step s a = some s' → I s') (h : I s) {as : List α}
    (hq : Along step Q s as) : Along step P s as := by
  induction as generalizing s with
  | nil => trivial
  | cons a as ih =>
    obtain ⟨hqa, hrest⟩ := hq
    exact ⟨hdoes s a h hqa, fun s' hs => ih (hstep s a s' h hqa hs) (hrest s' hs)⟩

theorem along_of_script {okb : σ → α → Bool} {P : σ → α → Prop} {as : List α} {t : σ}
    (hg : ∀ s a, okb s a = true → P s a) (h : runScript step okb s as = some t) :
    Along step P s as := by
  induction as generalizing s with
  | nil => trivial
  | cons a as ih =>
    unfold runScript at h
    split at h
    · rename_i hok
      obtain ⟨u, hu, hrest⟩ := Option.bind_eq_some_iff.mp h
      refine ⟨hg s a hok, fun s' hs => ih ?_⟩
      obtain rfl : u = s' := Option.some.inj (hu.symm.trans hs)
      exact hrest
    · cases h

theorem Along.at_script {P : σ → α → Prop} {as bs : List α} {a : α} {t : σ}
    (h : Along step P s (as ++ a :: bs)) (hrun : runScript step (fun _ _ => true) s as = some t) :
    P t a := by
  induction as generalizing s with
  | nil =>
    obtain rfl : s = t := Option.some.inj hrun
    exact h.1
  | cons b as ih =>
    simp only [runScript, if_true] at hrun
    obtain ⟨u, hu, hrest⟩ := Option.bind_eq_some_iff.mp hrun
    exact ih (h.2 u hu) hrest

theorem reach_of_script {okb : σ → α → Bool} {as : List α} {t : σ}
    (hg : ∀ s a, okb s a = true → ok s a)
    (h : runScript step okb s₀ as = some t) : Reach step ok s₀ t :=
  (Reach.append_script .start h).mono hg

end

end Esp32Project.Lib
