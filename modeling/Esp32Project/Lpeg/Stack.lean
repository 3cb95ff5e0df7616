import Esp32Project.Lpeg.Vm

/-!
The limit of the stack. Up to the push that finds it full `match` does what it
would do on a stack that never fills up.
-/

set_option autoImplicit false

namespace Esp32Project.Lpeg
open Esp32Project.Lib

section

variable {maxstack n init : Nat} {code : List Instruction} {subject : List UInt8} {a b : State}

theorem entries_pushed (h : turn code subject a = some b) (hpush : pushes code a = true) :
    b.entries = a.entries + 1 := by
  cases a with
  | fail stack capture => cases hpush
  | done r => cases hpush
  | run p s stack capture =>
    simp only [pushes] at hpush
    split at hpush
    · rename_i hinst
      simp only [turn, hinst, Option.some.injEq] at h
      exact h ▸ rfl
    · rename_i hinst
      simp only [turn, hinst, Option.some.injEq] at h
      exact h ▸ rfl
    · cases hpush

theorem entries_le (h : turn code subject a = some b) (hpush : pushes code a = false) :
    b.entries ≤ a.entries := by
  cases a with
  | done r => cases h
  | fail stack capture =>
    simp only [turn] at h
    split at h <;> cases h <;> simp [State.entries]
  | run p s stack capture =>
    cases hinst : code[p]? with
    | none => simp [turn, hinst] at h
    | some inst =>
      cases inst with
      | iChoice _ | iCall _ => simp [pushes, hinst] at hpush
      | iOpenCall _ => simp [turn, hinst] at h
      | iEnd =>
        simp only [turn, hinst, Option.some.injEq] at h
        exact h ▸ Nat.zero_le _
      -- the last entry goes, or another one comes in its place
      | iRet | iFailTwice | iCommit _ | iPartialCommit _ | iBackCommit _ =>
        simp only [turn, hinst] at h
        split at h <;> cases h <;> simp [State.entries]
      | iAny | iTestAny _ | iChar _ | iTestChar _ _ | iSet _ | iTestSet _ _ | iBehind _ =>
        simp only [turn, hinst] at h
        split at h <;> cases h <;> exact Nat.le_refl _
      | iSpan _ | iJmp _ | iFail | iFullCapture _ _ _ | iOpenCapture _ _ =>
        simp only [turn, hinst, Option.some.injEq] at h
        exact h ▸ Nat.le_refl _
      | iCloseCapture =>
        simp only [turn, hinst] at h
        obtain ⟨capture', -, rfl⟩ := Option.map_eq_some_iff.mp h
        exact Nat.le_refl _

/-- The sizes that the stack can have. -/
def Room (maxstack n : Nat) : Prop := maxback ≤ n ∧ n ≤ max maxback maxstack

theorem room_start : Room maxstack maxback := ⟨Nat.le_refl _, Nat.le_max_left _ _⟩

theorem doublestack_cases (h : Room maxstack n) :
    (doublestack maxstack n = none ∧ n = max maxback maxstack) ∨
      ∃ n', doublestack maxstack n = some n' ∧ n < n' ∧ Room maxstack n' := by
  obtain ⟨hlow, hhigh⟩ := h
  unfold doublestack
  by_cases hmost : n ≥ maxstack
  · exact .inl ⟨if_pos hmost, by omega⟩
  · have hpos : 0 < maxback := by decide
    exact .inr ⟨_, if_neg hmost, by omega, by omega, by omega⟩

theorem step_plain (h : (pushes code a && a.entries == n) = false) :
    step maxstack code subject (.running a n) = (turn code subject a).map (.running · n) := by
  simp only [step, h, Bool.false_eq_true, if_false]

theorem step_grown {n' : Nat} (hpush : pushes code a = true) (hfull : a.entries = n)
    (h : doublestack maxstack n = some n') :
    step maxstack code subject (.running a n) = (turn code subject a).map (.running · n') := by
  simp only [step, hpush, hfull, beq_self_eq_true, Bool.and_self, if_true, h]

theorem step_overflow (hpush : pushes code a = true) (hfull : a.entries = n)
    (h : doublestack maxstack n = none) :
    step maxstack code subject (.running a n) = some .overflow := by
  simp only [step, hpush, hfull, beq_self_eq_true, Bool.and_self, if_true, h]

/-- A turn with room for what it pushes, or the error where there is none. -/
theorem step_turn (hroom : Room maxstack n) (hentries : a.entries ≤ n)
    (h : turn code subject a = some b) :
    (∃ n', step maxstack code subject (.running a n) = some (.running b n') ∧ Room maxstack n' ∧
        b.entries ≤ n') ∨
      step maxstack code subject (.running a n) = some .overflow ∧
        max maxback maxstack < b.entries := by
  by_cases hpush : pushes code a = true
  · have hmore := entries_pushed h hpush
    by_cases hfull : a.entries = n
    · obtain ⟨hnone, hlimit⟩ | ⟨n', hsome, hlt, hroom'⟩ := doublestack_cases hroom
      · exact .inr ⟨step_overflow hpush hfull hnone, by omega⟩
      · rw [step_grown hpush hfull hsome, h]
        exact .inl ⟨n', rfl, hroom', by omega⟩
    · rw [step_plain (by simp [hfull]), h]
      exact .inl ⟨n, rfl, hroom, by omega⟩
  · rw [Bool.not_eq_true] at hpush
    have hless := entries_le h hpush
    rw [step_plain (by simp [hpush]), h]
    exact .inl ⟨n, rfl, hroom, by omega⟩

/-- `match` goes along with the stack that never fills up, until a state that does not fit. -/
theorem steps_turns (h : Steps (turn code subject) (.run 0 init [] []) b) :
    (∃ n, Steps (step maxstack code subject) (.start init) (.running b n) ∧ Room maxstack n ∧
        b.entries ≤ n) ∨
      Overflows maxstack code subject init ∧ ¬StackFits maxstack code subject init := by
  induction h with
  | refl => exact .inl ⟨maxback, .refl, room_start, Nat.le_of_ble_eq_true rfl⟩
  | tail hturns hlast ih =>
    obtain ⟨n, hsteps, hroom, hentries⟩ | hover := ih
    · obtain ⟨n', hstep, hroom', hentries'⟩ | ⟨hstep, hdeep⟩ := step_turn hroom hentries hlast
      · exact .inl ⟨n', hsteps.tail hstep, hroom', hentries'⟩
      · refine .inr ⟨hsteps.tail hstep, fun hfits => ?_⟩
        exact Nat.lt_irrefl _ (hdeep.trans_le (hfits _ (hturns.tail hlast)))
    · exact .inr hover

theorem returns_of_fits {r : Option Match} (h : Matches code subject init r)
    (hfits : StackFits maxstack code subject init) : Returns maxstack code subject init r := by
  obtain ⟨n, hsteps, -⟩ | ⟨-, hnot⟩ := steps_turns h
  · exact ⟨n, hsteps⟩
  · exact absurd hfits hnot

theorem overflows_of_not_fits (hnot : ¬StackFits maxstack code subject init) :
    Overflows maxstack code subject init := by
  unfold StackFits at hnot
  push Not at hnot
  obtain ⟨state, hturns, hdeep⟩ := hnot
  obtain ⟨n, -, hroom, hentries⟩ | ⟨hover, -⟩ := steps_turns hturns
  · exact absurd (hentries.trans hroom.2) (Nat.not_le.mpr hdeep)
  · exact hover

theorem not_returns_of_overflows {r : Option Match} (hover : Overflows maxstack code subject init) :
    ¬Returns maxstack code subject init r := by
  rintro ⟨n, hsteps⟩
  have hend : step maxstack code subject (.running (.done r) n) = none := rfl
  cases Steps.halted_unique hover hsteps rfl hend

theorem returns_unique {r r' : Option Match} (h : Returns maxstack code subject init r)
    (h' : Returns maxstack code subject init r') : r = r' := by
  obtain ⟨n, hsteps⟩ := h
  obtain ⟨n', hsteps'⟩ := h'
  have hend (r : Option Match) (n : Nat) :
      step maxstack code subject (.running (.done r) n) = none := rfl
  cases Steps.halted_unique hsteps hsteps' (hend r n) (hend r' n')
  rfl

/-- With a limit a match that ends returns its result if all of it fits, and else raises the
error. -/
theorem match_limited {r : Option Match} (h : Matches code subject init r) :
    (∀ r', Returns maxstack code subject init r' ↔ r' = r ∧ StackFits maxstack code subject init) ∧
      (Overflows maxstack code subject init ↔ ¬StackFits maxstack code subject init) := by
  by_cases hfits : StackFits maxstack code subject init
  · have hreturns := returns_of_fits h hfits
    refine ⟨fun r' => ⟨fun h' => ⟨returns_unique h' hreturns, hfits⟩, ?_⟩, ?_⟩
    · rintro ⟨rfl, -⟩
      exact hreturns
    · exact ⟨fun hover => absurd hreturns (not_returns_of_overflows hover), absurd hfits⟩
  · have hover := overflows_of_not_fits hfits
    refine ⟨fun r' => ⟨fun h' => absurd h' (not_returns_of_overflows hover), ?_⟩,
      fun _ => hfits, fun _ => hover⟩
    rintro ⟨-, h'⟩
    exact absurd h' hfits

end

end Esp32Project.Lpeg
