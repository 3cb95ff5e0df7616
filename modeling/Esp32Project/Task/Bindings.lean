import Esp32Project.Task.Handles

/-! Which callback a handle calls, over runs of registrations, posts and pump rounds. -/

set_option autoImplicit false

namespace Esp32Project.Task
open Esp32Project.Lib

/-! The bits of a handle. -/

theorem moniker_or {i : Nat} (h : i < 2 ^ 19) :
    taskHandleMoniker ||| i = taskHandleMoniker + i :=
  (Nat.two_pow_add_eq_or_of_lt h 0xD0D).symm

theorem handle_unmask {i : Nat} (h : i < 2 ^ 19) :
    (taskHandleMoniker ||| i) &&& taskHandleUnmask = i := by
  rw [moniker_or h, show taskHandleUnmask = 2 ^ 19 - 1 from rfl, Nat.and_two_pow_sub_one_eq_mod]
  unfold taskHandleMoniker
  omega

theorem mask_low {i : Nat} (h : i < 2 ^ 19) : i &&& taskHandleMask = 0 := by
  apply Nat.eq_of_testBit_eq
  intro j
  rw [Nat.testBit_and, Nat.zero_testBit, Bool.and_eq_false_iff,
    show taskHandleMask = 0x1FFF <<< 19 from rfl, Nat.testBit_shiftLeft]
  by_cases hj : j < 19
  · right
    simp [Nat.not_le.mpr hj]
  · left
    have hle : 2 ^ 19 ≤ 2 ^ j := Nat.pow_le_pow_right (by decide) (by omega)
    exact Nat.testBit_lt_two_pow (Nat.lt_of_lt_of_le h hle)

theorem handle_mask {i : Nat} (h : i < 2 ^ 19) :
    (taskHandleMoniker ||| i) &&& taskHandleMask = taskHandleMoniker := by
  rw [Nat.and_or_distrib_right, mask_low h, Nat.or_zero]
  rfl

theorem handle_injective {i j : Nat} (hi : i < 2 ^ 19) (hj : j < 2 ^ 19)
    (h : taskHandleMoniker ||| i = taskHandleMoniker ||| j) : i = j := by
  rw [moniker_or hi, moniker_or hj] at h
  exact Nat.add_left_cancel h

section

variable {α : Type} {s s' : Tasks α} {a : Answers} {t : α}

/-! The table as an array of cells. -/

def Tasks.cell (s : Tasks α) (i : Nat) : Option (Cell α) := s.taskFunc.bind (·[i]?)

theorem reallocCells_length {old : Option (List (Cell α))} {n : Nat} {cells : List (Cell α)}
    (h : reallocCells true old n = some cells) : cells.length = n := by
  simp only [reallocCells, if_true, Option.some.injEq] at h
  rw [← h, List.length_append, List.length_take, List.length_replicate]
  omega

theorem reallocCells_kept {old : Option (List (Cell α))} {n i : Nat} {cells : List (Cell α)}
    {c : Cell α} (h : reallocCells true old n = some cells) (hi : i < n)
    (hc : old.bind (·[i]?) = some c) : cells[i]? = some c := by
  simp only [reallocCells, if_true, Option.some.injEq] at h
  obtain ⟨block, rfl, hb⟩ := Option.bind_eq_some_iff.mp hc
  have hlen : i < block.length := (List.getElem?_eq_some_iff.mp hb).1
  rw [← h, Option.getD_some, List.getElem?_append_left (by rw [List.length_take]; omega),
    List.getElem?_take_of_lt hi, hb]

theorem clearCells_length {cells : List (Cell α)} {i n : Nat} (h : cells.length = i + n) :
    (clearCells cells i n).length = i + n := by
  simp only [clearCells, List.length_append, List.length_take, List.length_replicate,
    List.length_drop]
  omega

theorem clearCells_below {cells : List (Cell α)} {i j n : Nat} (hj : j < i)
    (h : i ≤ cells.length) : (clearCells cells i n)[j]? = cells[j]? := by
  rw [clearCells, List.append_assoc, List.getElem?_append_left (by rw [List.length_take]; omega),
    List.getElem?_take_of_lt hj]

/-! The queues are made once, and stay. -/

theorem initQueues_kept (made : Nat → Bool) (ps : List Nat) {taskQ : Queues} {p : Nat}
    {q : Queue} (h : taskQ p = some q) : (initQueues made ps taskQ).2 p = some q := by
  induction ps generalizing taskQ with
  | nil => exact h
  | cons p' ps ih =>
    rw [initQueues]
    cases hq : taskQ p' with
    | some _ => exact ih h
    | none =>
      have hk := taskInitHandler_kept (made p') p' taskDefaultQueueLen h
      dsimp only
      split
      · rename_i hm
        rw [hm] at hk
        exact ih hk
      · rename_i hm
        rw [hm] at hk
        exact hk

theorem initQueues_made (made : Nat → Bool) (ps : List Nat) (taskQ : Queues)
    (h : (initQueues made ps taskQ).1 = true) :
    ∀ p ∈ ps, ((initQueues made ps taskQ).2 p).isSome = true := by
  induction ps generalizing taskQ with
  | nil => simp
  | cons p' ps ih =>
    intro p hp
    rw [initQueues] at h ⊢
    cases hq : taskQ p' with
    | some q =>
      simp only [hq] at h ⊢
      rcases List.mem_cons.mp hp with rfl | hp
      · rw [initQueues_kept made ps hq]
        rfl
      · exact ih _ h p hp
    | none =>
      have hm := taskInitHandler_made (made p') taskQ p' taskDefaultQueueLen
      cases hi : taskInitHandler (made p') taskQ p' taskDefaultQueueLen with
      | mk res taskQ' =>
        rw [hi] at hm
        simp only [hq, hi] at h ⊢
        cases res with
        | false => cases h
        | true =>
          rcases List.mem_cons.mp hp with rfl | hp
          · rw [initQueues_kept made ps (hm rfl)]
            rfl
          · exact ih _ h p hp

/-- What a registration can do: nothing but make queues, lose the table, or
give out the next handle with all older cells as they were. -/
inductive GetId (s : Tasks α) (t : α) (a : Answers) : Nat → Tasks α → Prop where
  | noQueue (taskQ : Queues) (hkept : ∀ p q, s.taskQ p = some q → taskQ p = some q) :
      GetId s t a 0 { s with taskQ := taskQ }
  | noTable (taskQ : Queues) (hkept : ∀ p q, s.taskQ p = some q → taskQ p = some q)
      (hgrow : s.taskCount % taskHandleAllocationBrick = 0) (ha : a.table = false) :
      GetId s t a 0 { s with taskQ := taskQ, taskFunc := none }
  | given (taskQ : Queues) (cells : List (Cell α))
      (hmade : ∀ p < taskPriorityCount, (taskQ p).isSome = true)
      (hroom : s.taskCount < cells.length)
      (hgrown : s.taskCount % taskHandleAllocationBrick = 0 →
        cells.length = s.taskCount + taskHandleAllocationBrick)
      (hsame : s.taskCount % taskHandleAllocationBrick ≠ 0 → s.taskFunc = some cells)
      (hcells : ∀ i < s.taskCount, ∀ c, s.cell i = some c → cells[i]? = some c) :
      GetId s t a (taskHandleMoniker ||| s.taskCount)
        ⟨taskQ, some (cells.set s.taskCount (.fn t)), s.taskCount + 1,
          s.given ++ [(taskHandleMoniker ||| s.taskCount, t)]⟩

theorem taskGetId_cases {r : Nat} (h : taskGetId a s t = some (r, s')) : GetId s t a r s' := by
  unfold taskGetId at h
  have hmade := initQueues_made a.queue (List.range taskPriorityCount) s.taskQ
  have hkept : ∀ p q, s.taskQ p = some q →
      (initQueues a.queue (List.range taskPriorityCount) s.taskQ).2 p = some q :=
    fun _ _ => initQueues_kept a.queue (List.range taskPriorityCount)
  cases hq : initQueues a.queue (List.range taskPriorityCount) s.taskQ with
  | mk res taskQ =>
    simp only [hq] at h hmade hkept
    cases res with
    | false =>
      obtain ⟨rfl, rfl⟩ := Prod.mk.inj (Option.some.inj h)
      exact .noQueue taskQ hkept
    | true =>
      have hall : ∀ p < taskPriorityCount, (taskQ p).isSome = true :=
        fun p hp => hmade rfl p (List.mem_range.mpr hp)
      by_cases hg : s.taskCount % taskHandleAllocationBrick = 0
      · simp only [hg, if_true] at h
        cases ht : a.table with
        | false =>
          simp only [ht, reallocCells, Bool.false_eq_true, if_false, Option.map_none] at h
          obtain ⟨rfl, rfl⟩ := Prod.mk.inj (Option.some.inj h)
          exact .noTable taskQ hkept hg ht
        | true =>
          cases hr : reallocCells true s.taskFunc (s.taskCount + taskHandleAllocationBrick) with
          | none => simp [reallocCells] at hr
          | some block =>
            have hlen := reallocCells_length hr
            have hclear := clearCells_length hlen
            have hroom : s.taskCount < s.taskCount + taskHandleAllocationBrick :=
              Nat.lt_add_of_pos_right (by decide)
            simp only [ht, hr, Option.map_some, hclear, if_pos hroom] at h
            obtain ⟨rfl, rfl⟩ := Prod.mk.inj (Option.some.inj h)
            refine .given taskQ _ hall (by omega) (fun _ => hclear) (fun hn => absurd hg hn) ?_
            intro i hi c hc
            rw [clearCells_below hi (by omega)]
            exact reallocCells_kept hr (by omega) hc
      · simp only [hg, if_false] at h
        cases hf : s.taskFunc with
        | none => simp [hf] at h
        | some cells =>
          simp only [hf] at h
          split at h
          · rename_i hroom
            obtain ⟨rfl, rfl⟩ := Prod.mk.inj (Option.some.inj h)
            refine .given taskQ cells hall hroom (fun hn => absurd hn hg) (fun _ => hf) ?_
            intro i _ c hc
            rwa [Tasks.cell, hf] at hc
          · cases h

def Room (s : Tasks α) : Prop :=
  s.taskCount % taskHandleAllocationBrick ≠ 0 →
    ∃ cells, s.taskFunc = some cells ∧
      cells.length = s.taskCount / taskHandleAllocationBrick * taskHandleAllocationBrick +
        taskHandleAllocationBrick

theorem taskGetId_room {r : Nat} (hi : Room s) (h : GetId s t a r s') : Room s' := by
  cases h with
  | noQueue => exact hi
  | noTable _ _ hgrow => exact fun hn => absurd hgrow hn
  | given taskQ cells _ _ hgrown hsame =>
    intro hn
    refine ⟨_, rfl, ?_⟩
    rw [List.length_set]
    unfold taskHandleAllocationBrick at *
    dsimp only at hn ⊢
    by_cases hg : s.taskCount % 4 = 0
    · rw [hgrown hg]
      omega
    · obtain ⟨_, hf, hlen⟩ := hi hg
      cases (hsame hg).symm.trans hf
      rw [hlen]
      unfold taskHandleAllocationBrick
      omega

theorem taskGetId_defined (hi : Room s) (a : Answers) (t : α) :
    (taskGetId a s t).isSome = true := by
  unfold taskGetId
  split
  · rfl
  · by_cases hg : s.taskCount % taskHandleAllocationBrick = 0
    · simp only [hg, if_true]
      cases hr : reallocCells a.table s.taskFunc (s.taskCount + taskHandleAllocationBrick) with
      | none => rfl
      | some block =>
        have ht : a.table = true := by
          cases ha : a.table with
          | true => rfl
          | false => simp [reallocCells, ha] at hr
        rw [ht] at hr
        have hroom : s.taskCount < s.taskCount + taskHandleAllocationBrick :=
          Nat.lt_add_of_pos_right (by decide)
        simp [clearCells_length (reallocCells_length hr), hroom]
    · obtain ⟨cells, hf, hlen⟩ := hi hg
      have hroom : s.taskCount < cells.length := by
        unfold taskHandleAllocationBrick at *
        omega
      simp [hg, hf, hroom]

/-- Every call has an outcome, whatever the allocator answers. -/
theorem step_defined (h : Reach step (fun _ _ => True) init s) (c : Call α) :
    (step s c).isSome = true := by
  have hroom : Room s := by
    refine h.invariant Room (fun hn => absurd rfl hn) fun s c s' hi _ hs => ?_
    cases c with
    | getId t a =>
      obtain ⟨⟨r, s''⟩, hg, rfl⟩ := Option.map_eq_some_iff.mp hs
      exact taskGetId_room hi (taskGetId_cases hg)
    | post priority handle param =>
      cases Option.some.inj hs
      simp only [taskPost]
      split
      · split <;> exact hi
      · exact hi
    | pump =>
      simp only [step] at hs
      split at hs <;> cases hs <;> exact hi
  cases c with
  | getId t a =>
    rw [step, Option.isSome_map]
    exact taskGetId_defined hroom a t
  | post => rfl
  | pump =>
    simp only [step]
    split <;> rfl

/-- Every handle given out can be posted and calls its callback, no two are the
same, and nothing is called that was not registered. -/
structure HandlesOk (s : Tasks α) : Prop where
  bound : ∀ r ∈ s.given, (∀ priority < taskPriorityCount, postable s.taskQ priority r.1 = true) ∧
    dispatch s r.1 = some (.fn r.2)
  distinct : (s.given.map Prod.fst).Nodup
  registered : ∀ sig c, dispatch s sig = some c → ∃ r ∈ s.given, c = .fn r.2

/-- The table grows whenever it has to once a handle is out, and at most 65536
handles are given out. -/
def Sheltered (s : Tasks α) : Call α → Prop
  | .getId _ a => s.taskCount < 2 ^ 16 ∧
      (s.taskCount ≠ 0 → s.taskCount % taskHandleAllocationBrick = 0 → a.table = true)
  | _ => True

instance (s : Tasks α) : (c : Call α) → Decidable (Sheltered s c)
  | .getId _ a => inferInstanceAs (Decidable (_ ∧ (_ → _ → a.table = true)))
  | .post _ _ _ | .pump => inferInstanceAs (Decidable True)

structure Bound (s : Tasks α) : Prop where
  small : s.taskCount ≤ 2 ^ 16
  count : s.given.length = s.taskCount
  entry : ∀ i r, s.given[i]? = some r →
    r.1 = taskHandleMoniker ||| i ∧ s.cell i = some (.fn r.2)
  queues : 0 < s.taskCount → ∀ p < taskPriorityCount, (s.taskQ p).isSome = true

theorem Bound.index_lt (hb : Bound s) {i : Nat} {r : Nat × α} (h : s.given[i]? = some r) :
    i < s.taskCount := hb.count ▸ (List.getElem?_eq_some_iff.mp h).1

theorem dispatch_handle {i : Nat} {c : Cell α} (hi : i < s.taskCount) (hs : i < 2 ^ 16)
    (hc : s.cell i = some c) : dispatch s (taskHandleMoniker ||| i) = some c := by
  have hsmall : i < 2 ^ 19 := Nat.lt_trans hs (by decide)
  obtain ⟨cells, hf, hget⟩ := Option.bind_eq_some_iff.mp hc
  rw [dispatch, if_pos (handle_mask hsmall), handle_unmask hsmall, Nat.mod_eq_of_lt hs, hf]
  simp [hi, hget]

theorem dispatch_entry {sig : Nat} {c : Cell α} (h : dispatch s sig = some c) :
    ∃ i < s.taskCount, (s.cell i).getD .junk = c := by
  simp only [dispatch] at h
  split at h
  · split at h
    · rename_i cells hf
      split at h
      · rename_i hi
        refine ⟨_, hi, ?_⟩
        rw [Tasks.cell, hf]
        exact Option.some.inj h
      · cases h
    · cases h
  · cases h

theorem Bound.handlesOk (hb : Bound s) : HandlesOk s where
  bound r hr := by
    obtain ⟨i, hi⟩ := List.mem_iff_getElem?.mp hr
    obtain ⟨hh, hc⟩ := hb.entry i r hi
    have hlt := hb.index_lt hi
    have hs : i < 2 ^ 16 := Nat.lt_of_lt_of_le hlt hb.small
    rw [hh]
    refine ⟨fun p hp => ?_, dispatch_handle hlt hs hc⟩
    have hq := hb.queues (by omega) p hp
    have hm := handle_mask (i := i) (Nat.lt_trans hs (by decide))
    simp [postable, hp, hq, hm]
  distinct := by
    rw [List.nodup_iff_getElem?_ne_getElem?]
    intro i j hij hj
    rw [List.length_map] at hj
    have hi : i < s.given.length := Nat.lt_trans hij hj
    have hle := hb.small
    have hcount := hb.count
    rw [List.getElem?_map, List.getElem?_map, List.getElem?_eq_getElem hi,
      List.getElem?_eq_getElem hj]
    intro he
    simp only [Option.map_some, Option.some.injEq] at he
    rw [(hb.entry i _ (List.getElem?_eq_getElem hi)).1,
      (hb.entry j _ (List.getElem?_eq_getElem hj)).1] at he
    have := handle_injective (by omega) (by omega) he
    omega
  registered sig c h := by
    obtain ⟨i, hi, hc⟩ := dispatch_entry h
    have hlt : i < s.given.length := hb.count.symm ▸ hi
    have hget := List.getElem?_eq_getElem hlt
    refine ⟨s.given[i], List.getElem_mem hlt, ?_⟩
    rw [← hc, (hb.entry i _ hget).2]
    rfl

theorem Bound.setQueues (hb : Bound s) {taskQ : Queues}
    (h : ∀ p, (s.taskQ p).isSome = true → (taskQ p).isSome = true) :
    Bound { s with taskQ := taskQ } :=
  ⟨hb.small, hb.count, hb.entry, fun hp p hlt => h p (hb.queues hp p hlt)⟩

theorem Bound.getId {r : Nat} (hb : Bound s) (hg : Sheltered s (.getId t a))
    (h : GetId s t a r s') : Bound s' := by
  cases h with
  | noQueue taskQ hkept =>
    refine hb.setQueues fun p hp => ?_
    obtain ⟨q, hq⟩ := Option.isSome_iff_exists.mp hp
    rw [hkept p q hq]
    rfl
  | noTable taskQ _ hgrow ha =>
    -- the table is lost only while no handle is out
    have hz : s.taskCount = 0 := by
      by_contra hn
      rw [hg.2 hn hgrow] at ha
      cases ha
    have hnil : s.given = [] := List.length_eq_zero_iff.mp (hb.count.trans hz)
    exact ⟨hb.small, hb.count, fun i r h => by simp [hnil] at h,
      fun hp => absurd hz (Nat.ne_of_gt hp)⟩
  | given taskQ cells hmade hroom _ _ hcells =>
    refine ⟨hg.1, ?_, fun i r hr => ?_, fun _ => hmade⟩
    · rw [List.length_append, hb.count]
      rfl
    · dsimp only [Tasks.cell, Option.bind_some] at hr ⊢
      by_cases hi : i < s.given.length
      · rw [List.getElem?_append_left hi] at hr
        obtain ⟨hh, hc⟩ := hb.entry i r hr
        have hlt := hb.index_lt hr
        exact ⟨hh, by rw [List.getElem?_set_ne (by omega), hcells i hlt _ hc]⟩
      · have hlast : i = s.taskCount := by
          have := (List.getElem?_eq_some_iff.mp hr).1
          rw [List.length_append, hb.count] at this
          rw [hb.count] at hi
          simp only [List.length_singleton] at this
          omega
        subst hlast
        rw [← hb.count, List.getElem?_concat_length, Option.some.injEq] at hr
        subst hr
        rw [List.getElem?_set_self hroom]
        exact ⟨by rw [hb.count], rfl⟩

theorem nextEvent_kept {taskQ taskQ' : Queues} {pr p : Nat} {ev : Event}
    (h : nextEvent taskQ pr = some (ev, p, taskQ')) :
    ∀ p', (taskQ p').isSome = true → (taskQ' p').isSome = true := by
  induction pr with
  | zero => cases h
  | succ pr ih =>
    rw [nextEvent] at h
    split at h
    · cases h
      exact fun p' hp => isSome_update hp
    · exact ih h

theorem Bound.step {c : Call α} (hb : Bound s) (hg : Sheltered s c)
    (h : step s c = some s') : Bound s' := by
  cases c with
  | getId t a =>
    obtain ⟨⟨r, s''⟩, hr, rfl⟩ := Option.map_eq_some_iff.mp h
    exact hb.getId hg (taskGetId_cases hr)
  | post priority handle param =>
    cases Option.some.inj h
    simp only [taskPost]
    split
    · split
      · exact hb.setQueues fun p hp => isSome_update hp
      · exact hb
    · exact hb
  | pump =>
    simp only [Task.step] at h
    split at h
    · rename_i hn
      cases h
      exact hb.setQueues (nextEvent_kept hn)
    · cases h
      exact hb

end

/-- While the table grows whenever it has to, and for 65536 handles, every
handle stays bound to its callback, whatever else the allocator answers. -/
theorem handlesOk_of_sheltered (α : Type) (s : Tasks α) (h : Reach step Sheltered init s) :
    HandlesOk s :=
  have hb : Bound s := h.invariant Bound
    ⟨Nat.zero_le _, rfl, fun i r hr => by simp [init] at hr, fun hp => absurd hp (Nat.lt_irrefl 0)⟩
    (fun _ _ _ hb hg hs => hb.step hg hs)
  hb.handlesOk

def granted : Answers := ⟨fun _ => true, true⟩

def refused : Answers := ⟨fun _ => true, false⟩

/-- A first registration in vain, then five, with an event for the third. -/
theorem handlesOk_of_sheltered_five :
    ∃ s, runScript step (fun s c => decide (Sheltered s c)) init
      ([.getId 7 refused] ++ [10, 11, 12, 13, 14].map (.getId · granted) ++
        [.post 1 0x68680002 5, .pump]) = some s ∧ HandlesOk (α := Nat) s := by
  obtain ⟨s, hs⟩ : ∃ s, runScript step (fun s c => decide (Sheltered s c)) (init (α := Nat))
      ([.getId 7 refused] ++ [10, 11, 12, 13, 14].map (.getId · granted) ++
        [.post 1 0x68680002 5, .pump]) = some s :=
    Option.isSome_iff_exists.mp (by decide +kernel)
  exact ⟨s, hs, handlesOk_of_sheltered Nat s (reach_of_script (fun _ _ => of_decide_eq_true) hs)⟩

/-- The table fails to grow for a fifth callback, and grows for a sixth: the
first handle calls nothing, and then what the allocator has left. -/
theorem handles_lost_on_failed_growth :
    ∃ s s' : Tasks Nat, Reach step (fun _ _ => True) init s ∧
      step s (.getId 15 granted) = some s' ∧ (0x68680000, 10) ∈ s.given ∧
      dispatch s 0x68680000 = none ∧ dispatch s' 0x68680000 = some .junk ∧
      ¬ HandlesOk s ∧ ¬ HandlesOk s' := by
  have hrun : ((runScript step (fun _ _ => true) (init (α := Nat))
      ([10, 11, 12, 13].map (.getId · granted) ++ [.getId 14 refused])).bind fun s =>
        (step s (.getId 15 granted)).map fun s' =>
          (decide ((0x68680000, 10) ∈ s.given), dispatch s 0x68680000,
            dispatch s' 0x68680000)) = some (true, none, some .junk) := by decide +kernel
  obtain ⟨s, hs, hrest⟩ := Option.bind_eq_some_iff.mp hrun
  obtain ⟨s', hs', hv⟩ := Option.map_eq_some_iff.mp hrest
  simp only [Prod.mk.injEq, decide_eq_true_eq] at hv
  obtain ⟨hg, hd, hd'⟩ := hv
  refine ⟨s, s', reach_of_script (fun _ _ _ => trivial) hs, hs', hg, hd, hd', fun h => ?_,
    fun h => ?_⟩
  · have hb := (h.bound _ hg).2
    rw [hd] at hb
    cases hb
  · obtain ⟨r, _, hr⟩ := h.registered _ _ hd'
    cases hr

end Esp32Project.Task
