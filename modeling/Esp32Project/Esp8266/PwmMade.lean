import Esp32Project.Esp8266.PwmSort

/-!
The tables of a run: whatever the order of calls and interrupts, each one that is
complete is what the stores of one `pwm_start` (pwm.c) leave.
-/

set_option autoImplicit false

namespace Esp32Project.Esp8266
open Esp32Project.Lib Build

/-! The buffer is what the last store has made it. -/

section

variable {old : Schedule}

def Logged (old : Schedule) (p : Schedule × List Schedule) : Prop :=
  (old :: p.2).getLast? = some p.1 ∧ ∀ t ∈ old :: p.2, t.Full

theorem Logged.full {p : Schedule × List Schedule} (h : Logged old p) : p.1.Full :=
  h.2 _ (List.mem_of_getLast? h.1)

theorem Logged.append {p : Schedule × List Schedule} (h : Logged old p) {t : Schedule}
    (ht : t.Full) : Logged old (t, p.2 ++ [t]) := by
  refine ⟨List.getLast?_concat (l := old :: p.2) (a := t), fun u hu => ?_⟩
  rcases List.mem_append.mp (show u ∈ (old :: p.2) ++ [t] from hu) with hu | hu
  · exact h.2 u hu
  · exact List.mem_singleton.mp hu ▸ ht

theorem keeps_peek (i : Nat) : Keeps (Logged old) (peek i) := fun _ h => h

theorem keeps_count : Keeps (Logged old) count := fun _ h => h

theorem keeps_store (i : Nat) (p : PwmSingleParam) : Keeps (Logged old) (store i p) :=
  fun _ h => h.append h.full.put

theorem keeps_storeCount (n : Nat) : Keeps (Logged old) (storeCount n) :=
  fun _ h => h.append h.full

theorem keeps_shiftUp (tmp : PwmSingleParam) (i : Nat) : Keeps (Logged old) (shiftUp tmp i) := by
  induction i with
  | zero => exact keeps_pure 0
  | succ j ih =>
    refine keeps_bind (keeps_peek j) fun p => ?_
    split
    · exact keeps_bind (keeps_store _ _) fun _ => ih
    · exact keeps_pure _

theorem keeps_insertAt (i : Nat) : Keeps (Logged old) (insertAt i) := by
  refine keeps_bind (keeps_peek i) fun tmp => keeps_bind (keeps_peek (i - 1)) fun below => ?_
  split
  · refine keeps_bind (keeps_store _ _) fun _ => keeps_bind (keeps_shiftUp _ _) fun _ => ?_
    exact keeps_store _ _
  · exact keeps_pure _

theorem keeps_initParams (c : PwmConfig) : Keeps (Logged old) (initParams c) := by
  have hput : ∀ (i : Nat) (f : PwmSingleParam → PwmSingleParam) {m : Build Unit},
      Keeps (Logged old) m → Keeps (Logged old) (do store i (f (← peek i)); m) :=
    fun i f m hm => keeps_bind (keeps_peek i) fun p => keeps_bind (keeps_store _ _) fun _ => hm
  refine keeps_bind (keeps_forM (fun i => ?_) _) fun _ => ?_
  · refine hput i (fun p => { p with hTime := _ }) (hput i (fun p => { p with gpioSet := 0 }) ?_)
    exact keeps_bind (keeps_peek i) fun p => keeps_store _ _
  · refine hput _ (fun p => { p with hTime := _ }) (hput _ (fun p => { p with gpioSet := _ }) ?_)
    exact keeps_bind (keeps_peek _) fun p => keeps_store _ _

theorem keeps_moveDown (i : Nat) : Keeps (Logged old) (moveDown i) :=
  keeps_bind keeps_count fun _ => keeps_forM (fun _ => keeps_bind (keeps_peek _) fun _ =>
    keeps_store _ _) _

theorem keeps_combine (i : Nat) : Keeps (Logged old) (combine i) := by
  induction i with
  | zero => exact keeps_pure _
  | succ i ih =>
    refine keeps_bind (keeps_peek _) fun p => keeps_bind (keeps_peek _) fun q => ?_
    split
    · refine keeps_bind (keeps_peek _) fun _ => keeps_bind (keeps_peek _) fun _ => ?_
      refine keeps_bind (keeps_store _ _) fun _ => keeps_bind (keeps_peek _) fun _ => ?_
      refine keeps_bind (keeps_peek _) fun _ => keeps_bind (keeps_store _ _) fun _ => ?_
      refine keeps_bind (keeps_moveDown _) fun _ => keeps_bind keeps_count fun _ => ?_
      exact keeps_bind (keeps_storeCount _) fun _ => ih
    · exact ih

theorem keeps_toDeltas (i : Nat) : Keeps (Logged old) (toDeltas i) := by
  induction i with
  | zero => exact keeps_pure _
  | succ i ih =>
    refine keeps_bind (keeps_peek _) fun p => keeps_bind (keeps_peek _) fun q => ?_
    exact keeps_bind (keeps_store _ _) fun _ => ih

theorem keeps_dropZero : Keeps (Logged old) dropZero := by
  refine keeps_bind (keeps_peek 0) fun first => ?_
  split
  · refine keeps_bind keeps_count fun _ => keeps_bind (keeps_peek _) fun _ => ?_
    refine keeps_bind (keeps_peek _) fun _ => keeps_bind (keeps_store _ _) fun _ => ?_
    refine keeps_bind (keeps_peek _) fun _ => keeps_bind (keeps_peek _) fun _ => ?_
    refine keeps_bind (keeps_store _ _) fun _ => keeps_bind (keeps_moveDown 1) fun _ => ?_
    exact keeps_bind keeps_count fun _ => keeps_storeCount _
  · exact keeps_pure _

theorem scheduleStores_logged (c : PwmConfig) (hold : old.Full) :
    Logged old (built c old, scheduleStores c old) := by
  have hbuild : Keeps (Logged old) (buildSchedule c) := by
    refine keeps_bind (keeps_initParams c) fun _ => ?_
    refine keeps_bind (keeps_forM keeps_insertAt _) fun _ => ?_
    refine keeps_bind (keeps_storeCount _) fun _ => keeps_bind (keeps_combine _) fun _ => ?_
    refine keeps_bind keeps_count fun _ => keeps_bind (keeps_toDeltas _) fun _ => ?_
    refine keeps_bind keeps_count fun _ => keeps_bind (keeps_peek _) fun _ => ?_
    exact keeps_bind (keeps_store _ _) fun _ => keeps_dropZero
  exact hbuild (old, []) ⟨rfl, fun t ht => List.mem_singleton.mp ht ▸ hold⟩

end

def Made (t : Schedule) : Prop := ∃ c old, old.Full ∧ t = built c old

def Making (t : Schedule) (todo : List Schedule) : Prop :=
  (∃ u, (t :: todo).getLast? = some u ∧ Made u) ∧ ∀ u ∈ todo, u.Full

structure MadeInv (s : Pwm) : Prop where
  full : ∀ slot, (s.toggles slot).Full
  making : ∀ slot todo, s.pc = .begun slot todo ∨ s.pc = .writing slot todo →
    Making (s.toggles slot) todo
  finished : ∀ t ∈ s.finished, Made t

theorem madeInv_start {s : Pwm} (h : MadeInv s) : MadeInv (pwmStart s) := by
  refine ⟨h.full, fun slot todo hpc => ?_, h.finished⟩
  obtain ⟨hlast, hfull⟩ := scheduleStores_logged s.config (h.full (!s.pwmToggle))
  rcases hpc with hpc | hpc
  · cases hpc
    exact ⟨⟨_, hlast, s.config, _, h.full _, rfl⟩, fun u hu => hfull u (List.mem_cons_of_mem _ hu)⟩
  · cases hpc

theorem madeInv_store {s : Pwm} (h : MadeInv s) {slot : Bool} {b : Schedule}
    {todo : List Schedule} (hm : Making (s.toggles slot) (b :: todo)) :
    MadeInv (pwmStore s slot b todo) := by
  obtain ⟨⟨u, hu, hmade⟩, hfull⟩ := hm
  refine ⟨fun slot' => ?_, fun slot' todo' hpc => ?_, h.finished⟩
  · by_cases heq : slot' = slot
    · subst heq
      simpa [pwmStore] using hfull b List.mem_cons_self
    · simpa [pwmStore, Function.update_of_ne heq] using h.full slot'
  · rcases hpc with hpc | hpc <;> cases hpc
    simp only [pwmStore, Function.update_self]
    exact ⟨⟨u, hu, hmade⟩, fun v hv => hfull v (List.mem_cons_of_mem _ hv)⟩

theorem madeInv_finish {s : Pwm} (h : MadeInv s) {slot : Bool}
    (hm : Making (s.toggles slot) []) : MadeInv (pwmFinish s slot) := by
  obtain ⟨⟨u, hu, hmade⟩, -⟩ := hm
  obtain rfl : s.toggles slot = u := Option.some.inj hu
  refine ⟨h.full, fun slot' todo hpc => ?_, fun t ht => ?_⟩
  · simp only [pwmFinish] at hpc
    split at hpc <;> rcases hpc with hpc | hpc <;> cases hpc
  · rcases List.mem_cons.mp ht with rfl | ht
    · exact hmade
    · exact h.finished t ht

theorem MadeInv.of_eq {s s' : Pwm} (h : MadeInv s) (ht : s'.toggles = s.toggles)
    (hf : s'.finished = s.finished)
    (hpc : ∀ slot todo, s'.pc = .begun slot todo ∨ s'.pc = .writing slot todo → s'.pc = s.pc) :
    MadeInv s' :=
  ⟨ht ▸ h.full, fun slot todo h' => ht ▸ h.making slot todo (hpc slot todo h' ▸ h'),
    hf ▸ h.finished⟩

theorem madeInv_step {s s' : Pwm} {e : PwmEvent} (h : MadeInv s) (hs : pwmStep s e = some s') :
    MadeInv s' := by
  rcases pwmStep_cases hs with ⟨c, rfl, -, rfl⟩ | ⟨rfl, -, rfl⟩ | ⟨rfl, hs⟩ | ⟨rfl, -, hs⟩
  · exact h.of_eq rfl rfl fun _ _ _ => rfl
  · exact madeInv_start h
  · rcases taskStep_cases hs with ⟨slot, b, todo, hpc, rfl⟩ | ⟨slot, hpc, rfl⟩ | ⟨slot, -, rfl⟩ |
      ⟨-, rfl⟩
    · exact madeInv_store h (h.making slot _ hpc)
    · exact madeInv_finish h (h.making slot _ hpc)
    · obtain ⟨ht, hf, hpc⟩ : (pwmTake s slot).toggles = s.toggles ∧
          (pwmTake s slot).finished = s.finished ∧ (pwmTake s slot).pc = .flip := by
        simp only [pwmTake]
        split <;> exact ⟨rfl, rfl, rfl⟩
      refine h.of_eq ht hf fun _ _ h' => ?_
      rw [hpc] at h'
      rcases h' with h' | h' <;> cases h'
    · exact h.of_eq rfl rfl fun _ _ h' => by rcases h' with h' | h' <;> cases h'
  · obtain ⟨ht, hf, -, hpc, -⟩ := pwmTim1IntrHandler_cases hs
    exact h.of_eq ht hf fun _ _ _ => hpc

/-- Whatever the order of calls and interrupts, every finished table is one that
the stores of a `pwm_start` make of a buffer of the right size. -/
theorem finished_made {s : Pwm} (h : Reach pwmStep (fun _ _ => True) .init s) :
    ∀ t ∈ s.finished, Made t := by
  have hinit : MadeInv .init := by
    refine ⟨fun slot => ?_, fun slot todo hpc => ?_, fun t ht => ?_⟩
    · cases slot <;> rfl
    · rcases hpc with hpc | hpc <;> cases hpc
    · refine ⟨initConfig, .blank, rfl, ?_⟩
      rw [show t = .first from List.mem_singleton.mp ht]
      decide +kernel
  exact (h.invariant MadeInv hinit fun _ _ _ hi _ hs => madeInv_step hi hs).finished

end Esp32Project.Esp8266
