import Mathlib.Data.List.Basic
import Mathlib.Data.List.Nodup
import Mathlib.Logic.Function.Basic

/-!
Things that are handed out one by one and given back at most once. Every one is
a new one, so one that was given back is told from a later one in its place.
-/

set_option autoImplicit false

namespace Esp32Project.Lib

structure Ledger where
  /-- The one handed out next. -/
  next : Nat
  live : List Nat
  deriving DecidableEq, Repr

namespace Ledger

def empty : Ledger := ⟨0, []⟩

def take (l : Ledger) : Ledger := ⟨l.next + 1, l.next :: l.live⟩

/-- Giving back what is not handed out is an error. -/
def give (l : Ledger) (i : Nat) : Option Ledger :=
  if i ∈ l.live then some ⟨l.next, l.live.erase i⟩ else none

def Holds (l : Ledger) (i : Nat) : Prop := i ∈ l.live

instance (l : Ledger) (i : Nat) : Decidable (l.Holds i) := inferInstanceAs (Decidable (i ∈ l.live))

theorem give_of_mem {l : Ledger} {i : Nat} (h : i ∈ l.live) :
    l.give i = some ⟨l.next, l.live.erase i⟩ := if_pos h

theorem give_of_notMem {l : Ledger} {i : Nat} (h : i ∉ l.live) : l.give i = none := if_neg h

/-- The last one handed out may be given back, and all is as before but for the name used up. -/
theorem give_take (l : Ledger) : l.take.give l.next = some ⟨l.next + 1, l.live⟩ := by
  rw [give_of_mem List.mem_cons_self]
  simp [take]

/-- Each thing handed out is in one of the slots, and in no other. -/
structure Held {ι : Type} (l : Ledger) (f : ι → Option Nat) : Prop where
  live : ∀ r, r ∈ l.live ↔ ∃ i, f i = some r
  inj : ∀ i j r, f i = some r → f j = some r → i = j
  nodup : l.live.Nodup
  lt : ∀ r ∈ l.live, r < l.next

section

variable {ι : Type} {l : Ledger} {f : ι → Option Nat} {i : ι} {r : Nat}

theorem Held.mem (h : l.Held f) (hi : f i = some r) : r ∈ l.live := (h.live r).mpr ⟨i, hi⟩

variable [DecidableEq ι]

theorem Held.drop (h : l.Held f) (hi : f i = some r) :
    l.give r = some ⟨l.next, l.live.erase r⟩ ∧
      Held ⟨l.next, l.live.erase r⟩ (Function.update f i none) := by
  refine ⟨give_of_mem (h.mem hi), ⟨fun q => ?_, fun j k q hj hk => ?_, h.nodup.erase r,
    fun q hq => h.lt q (List.mem_of_mem_erase hq)⟩⟩
  · rw [h.nodup.mem_erase_iff, h.live]
    constructor
    · rintro ⟨hne, j, hj⟩
      have hji : j ≠ i := by
        rintro rfl
        exact hne (Option.some.inj (hj.symm.trans hi))
      exact ⟨j, by rwa [Function.update_of_ne hji]⟩
    · rintro ⟨j, hj⟩
      have hji : j ≠ i := by
        rintro rfl
        simp at hj
      rw [Function.update_of_ne hji] at hj
      refine ⟨fun hq => hji (h.inj j i r (hq ▸ hj) hi), j, hj⟩
  · have hji : j ≠ i := by
      rintro rfl
      simp at hj
    have hki : k ≠ i := by
      rintro rfl
      simp at hk
    rw [Function.update_of_ne hji] at hj
    rw [Function.update_of_ne hki] at hk
    exact h.inj j k q hj hk

theorem Held.fill (h : l.Held f) (hi : f i = none) :
    l.take.Held (Function.update f i (some l.next)) := by
  have hfresh : ∀ j, f j ≠ some l.next := fun j hj => Nat.lt_irrefl _ (h.lt _ (h.mem hj))
  refine ⟨fun q => ?_, fun j k q hj hk => ?_, ?_, fun q hq => ?_⟩
  · simp only [take, List.mem_cons, h.live]
    constructor
    · rintro (rfl | ⟨j, hj⟩)
      · exact ⟨i, by simp⟩
      · have hji : j ≠ i := by
          rintro rfl
          rw [hi] at hj
          cases hj
        exact ⟨j, by rwa [Function.update_of_ne hji]⟩
    · rintro ⟨j, hj⟩
      by_cases hji : j = i
      · subst hji
        rw [Function.update_self] at hj
        exact .inl (Option.some.inj hj).symm
      · rw [Function.update_of_ne hji] at hj
        exact .inr ⟨j, hj⟩
  · by_cases hji : j = i <;> by_cases hki : k = i
    · exact hji.trans hki.symm
    · subst hji
      rw [Function.update_self] at hj
      rw [Function.update_of_ne hki] at hk
      exact absurd (hk.trans hj.symm) (hfresh k)
    · subst hki
      rw [Function.update_self] at hk
      rw [Function.update_of_ne hji] at hj
      exact absurd (hj.trans hk.symm) (hfresh j)
    · rw [Function.update_of_ne hji] at hj
      rw [Function.update_of_ne hki] at hk
      exact h.inj j k q hj hk
  · exact List.nodup_cons.mpr ⟨fun hm => Nat.lt_irrefl _ (h.lt _ hm), h.nodup⟩
  · rcases List.mem_cons.mp hq with rfl | hq
    · exact Nat.lt_succ_self _
    · exact Nat.lt_succ_of_lt (h.lt q hq)

theorem Held.swap (h : l.Held f) (hi : f i = some r) :
    l.take.give r = some ⟨l.next + 1, l.next :: l.live.erase r⟩ ∧
      Held ⟨l.next + 1, l.next :: l.live.erase r⟩ (Function.update f i (some l.next)) := by
  have hne : l.next ≠ r := fun hr => Nat.lt_irrefl _ (hr ▸ h.lt r (h.mem hi))
  constructor
  · rw [give_of_mem (List.mem_cons_of_mem _ (h.mem hi))]
    simp [take, List.erase_cons_tail, hne]
  · have hfill := (h.drop hi).2.fill (i := i) (by simp)
    rwa [Function.update_idem] at hfill

end

end Ledger

end Esp32Project.Lib
