import Esp32Project.Task.Pump

/-! No wake-up is lost, in any order of posts and pump steps. -/

set_option autoImplicit false

namespace Esp32Project.Task
open Esp32Project.Lib

section

variable {τ : Type} {s s' : Sched τ}

def Sched.ahead (s : Sched τ) : Nat :=
  match s.pump with
  | .scan pr => pr
  | _ => taskPriorityCount

/-- What every step keeps. An event may lie behind the scan only if the
semaphore is given, or will be by the post itself. -/
structure SchedInv (s : Sched τ) : Prop where
  inOrder : ∀ p, s.posted p = s.dispatched p ++ s.inHand p ++ s.taskQ.waiting p
  bounded : ∀ p, (s.taskQ p).isSome = true → p < taskPriorityCount
  fresh : s.pump = .boot → s.pending = none
  created : ∀ t p ev, s.posters t = .sending p ev → (s.taskQ p).isSome = true
  scanned : ∀ pr, s.pump = .scan pr → ∀ q, pr ≤ q → q < taskPriorityCount → q ∈ s.found
  urgent : ∀ p ev, s.pump = .hand p ev → ∀ q, p < q → q < taskPriorityCount → q ∈ s.found
  announced : s.pending = some false → ∀ p k, Queued s p k → Posting s p k ∨ p < s.ahead

theorem SchedInv.pumpOk (hi : SchedInv s) : PumpOk s where
  inOrder := hi.inOrder
  urgent := hi.urgent
  awake := by
    rintro ⟨hp, hc⟩ p k hq
    refine (hi.announced hc p k hq).resolve_right fun h => ?_
    simp only [Sched.ahead, hp] at h
    omega

theorem Queued.lt_count (hi : SchedInv s) {p k : Nat} (h : Queued s p k) :
    p < taskPriorityCount := by
  obtain ⟨hlo, hhi⟩ := h
  cases hq : s.taskQ p with
  | none =>
    rw [waiting_none hq, List.length_nil] at hlo
    omega
  | some q => exact hi.bounded p (by rw [hq]; rfl)

theorem SchedInv.initHandler (hi : SchedInv s) (priority qlen : Nat) (made : Bool) :
    SchedInv { s with taskQ := (taskInitHandler made s.taskQ priority qlen).2 } := by
  refine ⟨fun p => ?_, fun p hp => ?_, hi.fresh, fun t p ev ht => ?_, hi.scanned, hi.urgent,
    fun hc p k hq => ?_⟩
  · rw [taskInitHandler_waiting]
    exact hi.inOrder p
  · exact (taskInitHandler_bounded hp).elim (hi.bounded p) id
  · obtain ⟨q, hq⟩ := Option.isSome_iff_exists.mp (hi.created t p ev ht)
    dsimp only
    rw [taskInitHandler_kept _ _ _ hq]
    rfl
  · rw [Queued, taskInitHandler_waiting] at hq
    exact hi.announced hc p k hq

theorem receive_some {taskQ : Queues} {p : Nat} {ev : Event} {q' : Queue}
    (h : (taskQ p).bind Queue.receive = some (ev, q')) :
    (taskQ p).isSome = true ∧ taskQ.waiting p = ev :: q'.items := by
  obtain ⟨q, hq, hr⟩ := Option.bind_eq_some_iff.mp h
  refine ⟨by rw [hq]; rfl, ?_⟩
  rw [waiting_some hq]
  cases hi : q.items with
  | nil => simp [Queue.receive, hi] at hr
  | cons first rest =>
    simp only [Queue.receive, hi, Option.some.injEq, Prod.mk.injEq] at hr
    rw [← hr.1, ← hr.2]

theorem receive_none {taskQ : Queues} {p : Nat} (h : (taskQ p).bind Queue.receive = none) :
    taskQ.waiting p = [] := by
  cases hq : taskQ p with
  | none => exact waiting_none hq
  | some q =>
    rw [waiting_some hq]
    cases hi : q.items with
    | nil => rfl
    | cons first rest => simp [hq, Queue.receive, hi] at h

/-- A scan from the most urgent queue on, whatever the semaphore. -/
theorem SchedInv.rescan (hi : SchedInv s) (hhand : ∀ p, s.inHand p = []) (c : Option Bool)
    (found : List Nat) :
    SchedInv { s with pending := c, pump := .scan taskPriorityCount, found := found } where
  inOrder p := by
    rw [hi.inOrder p, hhand p]
    rfl
  bounded := hi.bounded
  fresh := by simp
  created := hi.created
  scanned := by
    rintro pr hpr q hle hlt
    cases hpr
    omega
  urgent := by simp
  announced _ _ _ hq := .inr (Queued.lt_count (s := s) hi hq)

theorem SchedInv.pumpStep {made : Bool} (hi : SchedInv s) (h : pumpStep s made = some s') :
    SchedInv s' := by
  unfold Task.pumpStep at h
  cases hp : s.pump with
  | boot =>
    have hhand : ∀ p, s.inHand p = [] := fun p => by simp [Sched.inHand, hp]
    simp only [hp] at h
    split at h
    · cases h
      refine ⟨fun p => ?_, hi.bounded, by simp, hi.created, by simp, by simp, fun _ p k hq => ?_⟩
      · rw [hi.inOrder p, hhand p]
        rfl
      · exact .inr (Queued.lt_count (s := s) hi hq)
    · cases h
      exact hi.rescan hhand s.pending s.found
  | made =>
    simp only [hp] at h
    cases h
    exact hi.rescan (fun p => by simp [Sched.inHand, hp]) (some true) s.found
  | hand p ev =>
    simp only [hp] at h
    cases h
    refine ⟨fun p' => ?_, hi.bounded, by simp, hi.created, ?_, by simp, fun hc p' k hq => ?_⟩
    · have ho := hi.inOrder p'
      by_cases hpp : p' = p
      · subst hpp
        simpa [Sched.inHand, hp, Function.update_self] using ho
      · simpa [Sched.inHand, hp, Function.update_of_ne hpp, Ne.symm hpp] using ho
    · rintro pr hpr q hle hlt
      cases hpr
      omega
    · exact .inr (Queued.lt_count (s := s) hi hq)
  | scan pr =>
    have hhand : ∀ p, s.inHand p = [] := fun p => by simp [Sched.inHand, hp]
    cases pr with
    | zero =>
      simp only [hp] at h
      split at h
      · cases h
        exact hi.rescan hhand (some false) []
      · cases h
    | succ p =>
      simp only [hp] at h
      cases hr : (s.taskQ p).bind Queue.receive with
      | none =>
        simp only [hr] at h
        cases h
        refine ⟨fun p' => ?_, hi.bounded, by simp, hi.created, ?_, by simp, fun hc p' k hq => ?_⟩
        · rw [hi.inOrder p', hhand p']
          rfl
        · rintro pr hpr q hle hlt
          cases hpr
          by_cases hqp : q = p
          · exact hqp ▸ List.mem_cons_self
          · exact List.mem_cons_of_mem _ (hi.scanned _ hp q (by omega) hlt)
        · -- what this scan has not seen cannot be in the queue just found empty
          refine (hi.announced hc p' k hq).imp id fun hlt => ?_
          simp only [Sched.ahead, hp] at hlt ⊢
          have hne : p' ≠ p := by
            rintro rfl
            obtain ⟨hlo, hhi⟩ := hq
            rw [receive_none hr] at hlo
            exact absurd hhi (Nat.not_lt.mpr hlo)
          omega
      | some taken =>
        obtain ⟨ev, q'⟩ := taken
        simp only [hr] at h
        cases h
        obtain ⟨hsome, hitems⟩ := receive_some hr
        refine ⟨fun p' => ?_, fun p' hp' => ?_, by simp, fun t p' ev' ht => ?_, by simp, ?_,
          fun hc p' k hq => ?_⟩
        · have ho := hi.inOrder p'
          rw [hhand p', List.append_nil] at ho
          by_cases hpp : p' = p
          · subst hpp
            simpa [Sched.inHand, waiting_update, hitems] using ho
          · simpa [Sched.inHand, waiting_update, hpp, Ne.symm hpp] using ho
        · by_cases hpp : p' = p
          · exact hpp ▸ hi.bounded p hsome
          · exact hi.bounded p' (by simpa only [Function.update_of_ne hpp] using hp')
        · exact isSome_update (hi.created t p' ev' ht)
        · rintro p' ev' hh q hlt hq
          cases hh
          exact hi.scanned _ hp q hlt hq
        · refine .inr (Queued.lt_count (s := s) (k := k) hi ?_)
          obtain ⟨hlo, hhi⟩ := hq
          refine ⟨Nat.le_trans hlo (Nat.add_le_add_left ?_ k), hhi⟩
          rw [waiting_update]
          split
          · rename_i hpp
            rw [hpp, hitems]
            exact Nat.le_succ _
          · exact Nat.le_refl _

end

section

variable {τ : Type} [DecidableEq τ] {s s' : Sched τ}

theorem Posting.setPoster {t : τ} {P : Poster} {p k : Nat} (h : Posting s p k)
    (ht : ∀ r, s.posters t ≠ .sent (some r) ∧ s.posters t ≠ .giving (some r)) :
    Posting (s.setPoster t P) p k := by
  obtain ⟨u, hu⟩ := h
  have hne : u ≠ t := by
    rintro rfl
    exact hu.elim (ht _).1 (ht _).2
  exact ⟨u, by simpa only [Sched.setPoster, Function.update_of_ne hne] using hu⟩

theorem SchedInv.setPoster (hi : SchedInv s) {t : τ} {P : Poster}
    (hcreated : ∀ p ev, P = .sending p ev → (s.taskQ p).isSome = true)
    (hposting : ∀ p k, s.pending = some false → Posting s p k → Posting (s.setPoster t P) p k) :
    SchedInv (s.setPoster t P) where
  inOrder := hi.inOrder
  bounded := hi.bounded
  fresh := hi.fresh
  created u p ev hu := by
    by_cases hut : u = t
    · subst hut
      simp only [Sched.setPoster, Function.update_self] at hu
      exact hcreated p ev hu
    · simp only [Sched.setPoster, Function.update_of_ne hut] at hu
      exact hi.created u p ev hu
  scanned := hi.scanned
  urgent := hi.urgent
  announced hc p k hq := (hi.announced hc p k hq).imp_left (hposting p k hc)

theorem sendToBack_true {q q' : Queue} {ev : Event} (h : q.sendToBack ev = (true, q')) :
    q'.items = q.items ++ [ev] := by
  unfold Queue.sendToBack at h
  split at h
  · cases h
    rfl
  · cases h

theorem SchedInv.posterStep {t : τ} (hi : SchedInv s) (h : posterStep s t = some s') :
    SchedInv s' := by
  unfold Task.posterStep at h
  cases ht : s.posters t with
  | out res => simp [ht] at h
  | sending p ev =>
    have hidle : ∀ r, s.posters t ≠ .sent (some r) ∧ s.posters t ≠ .giving (some r) := by
      simp [ht]
    simp only [ht] at h
    cases hq : s.taskQ p with
    | none => simp [hq] at h
    | some q =>
      simp only [hq] at h
      cases hsend : q.sendToBack ev with
      | mk res q' =>
        simp only [hsend] at h
        cases res with
        | false =>
          cases h
          exact hi.setPoster (by simp) fun _ _ _ hp => hp.setPoster hidle
        | true =>
          cases h
          have hitems := sendToBack_true hsend
          refine ⟨fun p' => ?_, fun p' hp' => ?_, hi.fresh, fun u p' ev' hu => ?_, hi.scanned,
            hi.urgent, fun hc p' k hqueued => ?_⟩
          · have ho := hi.inOrder p'
            by_cases hp : p' = p
            · subst hp
              rw [waiting_some hq] at ho
              simp only [waiting_update, if_true, hitems, Function.update_self, ho,
                List.append_assoc]
              rfl
            · simp only [waiting_update, if_neg hp, Function.update_of_ne hp]
              exact ho
          · by_cases hp : p' = p
            · exact hp ▸ hi.bounded p (by rw [hq]; rfl)
            · exact hi.bounded p' (by simpa only [Function.update_of_ne hp] using hp')
          · refine isSome_update ?_
            by_cases hut : u = t
            · subst hut
              simp [Sched.setPoster] at hu
            · exact hi.created u p' ev'
                (by simpa only [Sched.setPoster, Function.update_of_ne hut] using hu)
          · have hold : Queued s p' k → Posting _ p' k ∨ p' < s.ahead := fun hq' =>
              (hi.announced hc p' k hq').imp_left
                (Posting.setPoster (P := .sent (some (p, (s.posted p).length))) · hidle)
            by_cases hp : p' = p
            · subst hp
              by_cases hk : k = (s.posted p').length
              · -- the event just sent, whose post still has to give the semaphore
                subst hk
                exact .inl ⟨t, .inl (Function.update_self ..)⟩
              · refine hold ?_
                obtain ⟨hlo, hhi⟩ := hqueued
                simp only [waiting_update, if_true, hitems, Function.update_self,
                  List.length_append, List.length_singleton] at hlo hhi
                rw [Queued, waiting_some hq]
                omega
            · refine hold ?_
              simpa only [Queued, waiting_update, if_neg hp, Function.update_of_ne hp] using hqueued
  | sent res =>
    simp only [ht] at h
    cases hc : s.pending with
    | none =>
      simp only [hc] at h
      cases h
      exact hi.setPoster (by simp) (by simp [hc])
    | some c =>
      simp only [hc] at h
      cases h
      refine hi.setPoster (by simp) fun p k _ hp => ?_
      obtain ⟨u, hu⟩ := hp
      by_cases hut : u = t
      · subst hut
        have hres : res = some (p, k) := by simpa [ht] using hu
        exact ⟨u, .inr (by rw [hres]; exact Function.update_self ..)⟩
      · exact ⟨u, by simpa only [Sched.setPoster, Function.update_of_ne hut] using hu⟩
  | giving res =>
    simp only [ht] at h
    cases h
    refine ⟨hi.inOrder, hi.bounded, fun hb => ?_, fun u p ev hu => ?_, hi.scanned, hi.urgent,
      fun hc => ?_⟩
    · simp [hi.fresh hb]
    · by_cases hut : u = t
      · subst hut
        simp [Sched.setPoster] at hu
      · exact hi.created u p ev
          (by simpa only [Sched.setPoster, Function.update_of_ne hut] using hu)
    · simp at hc

theorem SchedInv.schedStep {a : Act τ} (hi : SchedInv s) (h : schedStep s a = some s') :
    SchedInv s' := by
  cases a with
  | initHandler priority qlen made =>
    cases h
    exact hi.initHandler priority qlen made
  | post t priority handle param =>
    simp only [Task.schedStep] at h
    split at h
    · rename_i res ht
      have hkeep : ∀ (P : Poster) p k, s.pending = some false → Posting s p k →
          Posting (s.setPoster t P) p k :=
        fun _ _ _ _ hp => hp.setPoster (by simp [ht])
      split at h
      · rename_i hpost
        cases h
        refine hi.setPoster (fun p ev he => ?_) (hkeep _)
        cases he
        simp only [postable, Bool.and_eq_true] at hpost
        exact hpost.1.2
      · cases h
        exact hi.setPoster (by simp) (hkeep _)
    · cases h
  | poster t => exact hi.posterStep h
  | pump made => exact hi.pumpStep h

end

theorem schedInv_init (τ : Type) : SchedInv (Sched.init (τ := τ)) where
  inOrder _ := rfl
  bounded p h := by simp [Sched.init] at h
  fresh _ := rfl
  created t p ev h := by simp [Sched.init] at h
  scanned pr h := by simp [Sched.init] at h
  urgent p ev h := by simp [Sched.init] at h
  announced h := by simp [Sched.init] at h

/-- A task inside `task_post` never meets a queue that is gone. -/
theorem post_defined (τ : Type) [DecidableEq τ] (s : Sched τ)
    (h : Reach schedStep (fun _ _ => True) Sched.init s) (t : τ)
    (ht : ∀ res, s.posters t ≠ .out res) : (posterStep s t).isSome = true := by
  have hi : SchedInv s :=
    h.invariant SchedInv (schedInv_init τ) fun _ _ _ hi _ hs => hi.schedStep hs
  unfold posterStep
  cases hp : s.posters t with
  | out res => exact absurd hp (ht res)
  | sending p ev =>
    obtain ⟨q, hq⟩ := Option.isSome_iff_exists.mp (hi.created t p ev hp)
    simp only [hq]
    cases hsend : q.sendToBack ev with
    | mk res q' => cases res <;> rfl
  | sent res => cases s.pending <;> rfl
  | giving res => rfl

/-- In every order of posts, queue creations and pump steps. -/
theorem pumpOk_of_reach (τ : Type) [DecidableEq τ] (s : Sched τ)
    (h : Reach schedStep (fun _ _ => True) Sched.init s) : PumpOk s :=
  (h.invariant SchedInv (schedInv_init τ) fun _ _ _ hi _ hs => hi.schedStep hs).pumpOk

/-- An event posted before the pump starts, and one that comes in behind the
scan: its post gives the semaphore that the pump then waits for. -/
def behindScan : List (Act Nat) :=
  [.initHandler 0 8 true, .initHandler 1 8 true, .post 0 1 0x68680000 7, .poster 0, .poster 0] ++
    List.replicate 11 (.pump true) ++
    [.post 1 1 0x68680001 8, .poster 1, .pump true, .poster 1, .poster 1, .pump true]

theorem pumpOk_of_reach_behind :
    ∃ s, runScript schedStep (fun _ _ => true) Sched.init behindScan = some s ∧ PumpOk s := by
  obtain ⟨s, hs⟩ : ∃ s, runScript schedStep (fun _ _ => true) Sched.init behindScan = some s :=
    Option.isSome_iff_exists.mp (by decide +kernel)
  exact ⟨s, hs, pumpOk_of_reach Nat s (reach_of_script (fun _ _ _ => trivial) hs)⟩

end Esp32Project.Task
