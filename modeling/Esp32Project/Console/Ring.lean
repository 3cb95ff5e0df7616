import Esp32Project.Lib.LossyQueue
import Mathlib.Logic.Function.Basic

/-!
The receive buffer between `uart_event_task` (my_uart.c) and `uart_getc`
(lua.c). Positions are offsets from `pRcvMsgBuff`; `RX_BUFF_SIZE`, the number
of bytes allocated, comes from a ROM header and is a parameter. Both positions
run up to RX_BUFF_SIZE itself before they wrap.
-/

set_option autoImplicit false

namespace Esp32Project.Console
open Esp32Project.Lib

structure RcvMsgBuff where
  /-- The bytes from `pRcvMsgBuff` on. -/
  buf : Nat → UInt8
  writePos : Nat
  readPos : Nat
  /-- Every offset read or written so far, the latest first. -/
  touched : List Nat

/-- `uart_init`. -/
def RcvMsgBuff.init : RcvMsgBuff := ⟨fun _ => 0, 0, 0, []⟩

def advancePos (rxBuffSize p : Nat) : Nat := if p = rxBuffSize then 0 else p + 1

/-- The loop body of `uart_event_task` for one received byte. -/
def rcvChar (rxBuffSize : Nat) (r : RcvMsgBuff) (c : UInt8) : RcvMsgBuff :=
  let r := { r with
    buf := Function.update r.buf r.writePos c
    touched := r.writePos :: r.touched
    writePos := advancePos rxBuffSize r.writePos }
  if r.writePos = r.readPos then { r with readPos := advancePos rxBuffSize r.readPos } else r

def uartGetc (rxBuffSize : Nat) (r : RcvMsgBuff) : Option (UInt8 × RcvMsgBuff) :=
  if r.writePos = r.readPos then none
  else some (r.buf r.readPos, { r with
    touched := r.readPos :: r.touched
    readPos := advancePos rxBuffSize r.readPos })

inductive RingCall where
  | event : List UInt8 → RingCall
  | getc : RingCall
  deriving DecidableEq, Repr

/-- The buffer with the bytes that `uart_getc` returned. -/
def ringStep (rxBuffSize : Nat) (s : RcvMsgBuff × List UInt8) : RingCall → RcvMsgBuff × List UInt8
  | .event cs => (cs.foldl (rcvChar rxBuffSize) s.1, s.2)
  | .getc =>
    match uartGetc rxBuffSize s.1 with
    | none => s
    | some (c, r) => (r, s.2 ++ [c])

def ringRun (rxBuffSize : Nat) (calls : List RingCall) : RcvMsgBuff × List UInt8 :=
  calls.foldl (ringStep rxBuffSize) (.init, [])

/-- The byte `i` places behind a position, modulo the RX_BUFF_SIZE + 1 places used. -/
def slot (n r i : Nat) : Nat := if r + i ≤ n then r + i else r + i - (n + 1)

structure Holds (n : Nat) (r : RcvMsgBuff) (q : List UInt8) : Prop where
  read_le : r.readPos ≤ n
  length_le : q.length ≤ n
  write_eq : r.writePos = slot n r.readPos q.length
  bytes : ∀ i b, q[i]? = some b → r.buf (slot n r.readPos i) = b

theorem holds_init (n : Nat) : Holds n .init [] :=
  ⟨Nat.zero_le n, Nat.zero_le n, by simp [RcvMsgBuff.init, slot], by simp⟩

section

variable {n r i j : Nat}

theorem slot_zero (hr : r ≤ n) : slot n r 0 = r := by
  unfold slot; split <;> omega

theorem slot_ne (hij : i < j) (hj : j ≤ n) : slot n r i ≠ slot n r j := by
  unfold slot; split <;> split <;> omega

theorem advancePos_slot (hr : r ≤ n) (hi : i ≤ n) :
    advancePos n (slot n r i) = slot n r (i + 1) := by
  unfold advancePos slot; split <;> split <;> split <;> omega

theorem slot_advancePos (hi : i ≤ n) :
    slot n (advancePos n r) i = slot n r (i + 1) := by
  unfold advancePos slot; split <;> split <;> split <;> omega

theorem slot_full : slot n r (n + 1) = r := by
  unfold slot; split <;> omega

theorem advancePos_le (hr : r ≤ n) : advancePos n r ≤ n := by
  unfold advancePos; split <;> omega

end

theorem rcvChar_holds {n : Nat} {r : RcvMsgBuff} {q : List UInt8} (h : Holds n r q) (c : UInt8) :
    Holds n (rcvChar n r c) (LossyQueue.push n q c) := by
  obtain ⟨hr, hlen, hw, hb⟩ := h
  have hnext : advancePos n r.writePos = slot n r.readPos (q.length + 1) := by
    rw [hw, advancePos_slot hr hlen]
  have hbytes : ∀ i b, (q ++ [c])[i]? = some b →
      Function.update r.buf r.writePos c (slot n r.readPos i) = b := by
    intro i b hi
    rcases Nat.lt_trichotomy i q.length with hlt | rfl | hgt
    · rw [hw, Function.update_of_ne (slot_ne hlt hlen)]
      exact hb i b (by rwa [List.getElem?_append_left hlt] at hi)
    · rw [hw, Function.update_self]
      simpa using hi
    · simp [List.getElem?_append_right (Nat.le_of_lt hgt), Nat.sub_ne_zero_of_lt hgt] at hi
  by_cases hfull : q.length < n
  · have hne : advancePos n r.writePos ≠ r.readPos := by
      have hz := slot_ne (r := r.readPos) (Nat.succ_pos q.length) hfull
      rw [slot_zero hr] at hz
      rw [hnext]
      exact hz.symm
    rw [LossyQueue.push_of_lt c hfull]
    simp only [rcvChar, if_neg hne]
    exact ⟨hr, by simpa using Nat.succ_le_of_lt hfull, by simpa using hnext, hbytes⟩
  · -- the byte pushed out is the oldest one
    have heq : q.length = n := by omega
    have hwrap : advancePos n r.writePos = r.readPos := by rw [hnext, heq, slot_full]
    simp only [rcvChar, if_pos hwrap, LossyQueue.push, heq, Nat.add_sub_cancel_left]
    refine ⟨advancePos_le hr, by simp [heq], ?_, fun i b hi => ?_⟩
    · simp only [List.length_drop, List.length_append, List.length_singleton, heq,
        Nat.add_sub_cancel]
      rw [slot_advancePos (Nat.le_refl n), slot_full, hwrap]
    · rw [List.getElem?_drop] at hi
      have hin : i ≤ n := by
        have := (List.getElem?_eq_some_iff.mp hi).1
        simp [heq] at this
        omega
      rw [slot_advancePos hin, Nat.add_comm]
      exact hbytes _ b hi

theorem uartGetc_holds {n : Nat} {r : RcvMsgBuff} {q : List UInt8} (h : Holds n r q) :
    (q = [] ∧ uartGetc n r = none) ∨
      ∃ b q' r', q = b :: q' ∧ uartGetc n r = some (b, r') ∧ Holds n r' q' := by
  obtain ⟨hr, hlen, hw, hb⟩ := h
  cases q with
  | nil =>
    refine .inl ⟨rfl, if_pos ?_⟩
    rw [hw]
    exact slot_zero hr
  | cons b q =>
    simp only [List.length_cons] at hlen hw
    have hne : r.writePos ≠ r.readPos := by
      have hz := slot_ne (r := r.readPos) (Nat.succ_pos q.length) hlen
      rw [slot_zero hr] at hz
      rw [hw]
      exact hz.symm
    have hfirst : r.buf r.readPos = b := by
      have := hb 0 b rfl
      rwa [slot_zero hr] at this
    refine .inr ⟨b, q, _, rfl, by rw [uartGetc, if_neg hne, hfirst], ?_⟩
    refine ⟨advancePos_le hr, Nat.le_of_succ_le hlen, ?_, fun i b' hi => ?_⟩
    · simp only
      rw [slot_advancePos (by omega), hw]
    · have hin : i < q.length := (List.getElem?_eq_some_iff.mp hi).1
      simp only
      rw [slot_advancePos (by omega)]
      exact hb (i + 1) b' hi

def queueOps (calls : List RingCall) : List (LossyQueue.Op UInt8) :=
  calls.flatMap fun
    | .event cs => cs.map .put
    | .getc => [.get]

def received (calls : List RingCall) : List UInt8 :=
  calls.flatMap fun
    | .event cs => cs
    | .getc => []

def Follows (n : Nat) (s : RcvMsgBuff × List UInt8) (t : LossyQueue.State UInt8) : Prop :=
  Holds n s.1 t.pending ∧ s.2 = t.given

theorem ringStep_follows {n : Nat} {s : RcvMsgBuff × List UInt8} {t : LossyQueue.State UInt8}
    (h : Follows n s t) (c : RingCall) :
    Follows n (ringStep n s c) ((queueOps [c]).foldl (LossyQueue.step n) t) := by
  cases c with
  | event cs =>
    simp only [queueOps, List.flatMap_cons, List.flatMap_nil, List.append_nil, ringStep]
    obtain ⟨r, out⟩ := s
    induction cs generalizing r t with
    | nil => exact h
    | cons c cs ih => exact ih _ ⟨rcvChar_holds h.1 c, h.2⟩
  | getc =>
    obtain ⟨hq, hout⟩ := h
    rcases uartGetc_holds hq with ⟨hnil, hget⟩ | ⟨b, q', r', hcons, hget, hq'⟩
    · simp only [ringStep, hget]
      exact ⟨by simpa [queueOps, LossyQueue.step, hnil] using hq, by
        simpa [queueOps, LossyQueue.step, hnil] using hout⟩
    · simp only [ringStep, hget]
      exact ⟨by simpa [queueOps, LossyQueue.step, hcons] using hq', by
        simpa [queueOps, LossyQueue.step, hcons] using hout⟩

/-- Over any run the buffer behaves as a queue of RX_BUFF_SIZE bytes, whatever
lies behind its end. -/
theorem ringRun_follows (n : Nat) (calls : List RingCall) :
    Follows n (ringRun n calls) (LossyQueue.run n (queueOps calls)) := by
  have hstep : ∀ (calls : List RingCall) s t, Follows n s t →
      Follows n (calls.foldl (ringStep n) s) ((queueOps calls).foldl (LossyQueue.step n) t) := by
    intro calls
    induction calls with
    | nil => exact fun s t h => h
    | cons c calls ih =>
      intro s t h
      have hc : queueOps (c :: calls) = queueOps [c] ++ queueOps calls := by simp [queueOps]
      rw [hc, List.foldl_append]
      exact ih _ _ (ringStep_follows h c)
  exact hstep calls _ _ ⟨holds_init n, rfl⟩

/-- After `t` bytes: before the buffer is full once no place outside is
touched, and with the next byte the place behind it is. -/
def Reached (n t : Nat) (r : RcvMsgBuff) : Prop :=
  (t ≤ n → r.writePos = t ∧ r.readPos ≤ t ∧ ∀ i ∈ r.touched, i < n) ∧ (n < t → n ∈ r.touched)

theorem rcvChar_reached {n t : Nat} {r : RcvMsgBuff} (h : Reached n t r) (c : UInt8) :
    Reached n (t + 1) (rcvChar n r c) := by
  have htouched : (rcvChar n r c).touched = r.writePos :: r.touched := by
    unfold rcvChar; dsimp only; split <;> rfl
  refine ⟨fun ht => ?_, fun ht => ?_⟩
  · obtain ⟨hw, hr, hin⟩ := h.1 (by omega)
    have hnext : advancePos n r.writePos = t + 1 := by
      rw [advancePos, if_neg (by omega), hw]
    have hne : advancePos n r.writePos ≠ r.readPos := by omega
    refine ⟨?_, ?_, fun i hi => ?_⟩
    · simpa only [rcvChar, if_neg hne] using hnext
    · simp only [rcvChar, if_neg hne]
      omega
    · rw [htouched] at hi
      rcases List.mem_cons.mp hi with rfl | hi
      · omega
      · exact hin i hi
  · rw [htouched]
    rcases Nat.lt_or_ge n t with hlt | hge
    · exact List.mem_cons_of_mem _ (h.2 hlt)
    · obtain ⟨hw, -⟩ := h.1 hge
      rw [hw, show t = n by omega]
      exact List.mem_cons_self

theorem uartGetc_reached {n t : Nat} {r r' : RcvMsgBuff} {b : UInt8} (h : Reached n t r)
    (hget : uartGetc n r = some (b, r')) : Reached n t r' := by
  unfold uartGetc at hget
  split at hget
  · cases hget
  rename_i hne
  cases hget
  refine ⟨fun ht => ?_, fun ht => List.mem_cons_of_mem _ (h.2 ht)⟩
  obtain ⟨hw, hr, hin⟩ := h.1 ht
  have hlt : r.readPos < t := by omega
  refine ⟨hw, ?_, fun i hi => ?_⟩
  · simp only [advancePos, if_neg (show r.readPos ≠ n by omega)]
    omega
  · rcases List.mem_cons.mp hi with rfl | hi
    · omega
    · exact hin i hi

theorem ringRun_reached (n : Nat) (calls : List RingCall) :
    Reached n (received calls).length (ringRun n calls).1 := by
  have hchars : ∀ (cs : List UInt8) t r, Reached n t r →
      Reached n (t + cs.length) (cs.foldl (rcvChar n) r) := by
    intro cs
    induction cs with
    | nil => exact fun t r h => h
    | cons c cs ih =>
      intro t r h
      have := ih (t + 1) _ (rcvChar_reached h c)
      rwa [List.length_cons, Nat.add_comm cs.length, ← Nat.add_assoc]
  have hstep : ∀ (calls : List RingCall) t s, Reached n t s.1 →
      Reached n (t + (received calls).length) (calls.foldl (ringStep n) s).1 := by
    intro calls
    induction calls with
    | nil => exact fun t s h => h
    | cons c calls ih =>
      intro t s h
      cases c with
      | event cs =>
        have := ih (t + cs.length) (ringStep n s (.event cs)) (hchars cs t s.1 h)
        simpa [received, Nat.add_assoc] using this
      | getc =>
        refine ih t (ringStep n s .getc) ?_
        unfold ringStep
        cases hget : uartGetc n s.1 with
        | none => exact h
        | some p => exact uartGetc_reached h hget
  have h₀ : Reached n 0 RcvMsgBuff.init :=
    ⟨fun _ => ⟨rfl, Nat.le_refl 0, by simp [RcvMsgBuff.init]⟩,
      fun h => absurd h (Nat.not_lt_zero n)⟩
  simpa [ringRun] using hstep calls 0 (.init, []) h₀

theorem puts_queueOps (calls : List RingCall) :
    LossyQueue.puts (queueOps calls) = received calls := by
  induction calls with
  | nil => rfl
  | cons c calls ih =>
    simp only [LossyQueue.puts, queueOps, received, List.flatMap_cons, List.flatMap_append] at ih ⊢
    rw [ih]
    congr 1
    cases c with
    | event cs => simp [List.flatMap_map]
    | getc => rfl

theorem ringRun_sublist (n : Nat) (calls : List RingCall) :
    (ringRun n calls).2.Sublist (received calls) := by
  rw [(ringRun_follows n calls).2, ← puts_queueOps]
  exact (List.sublist_append_left _ _).trans (LossyQueue.run_sublist n (queueOps calls))

/-- Every place touched is allocated, and the bytes returned are those of a
queue of RX_BUFF_SIZE bytes that loses its oldest ones. -/
def RingOk (n : Nat) (calls : List RingCall) : Prop :=
  (∀ i ∈ (ringRun n calls).1.touched, i < n) ∧
    (ringRun n calls).2 = (LossyQueue.run n (queueOps calls)).given ∧
    (ringRun n calls).2.Sublist (received calls)

/-- The buffer is used properly as long as it has not been filled up once. -/
theorem ringOk_iff (rxBuffSize : Nat) (calls : List RingCall) :
    RingOk rxBuffSize calls ↔ (received calls).length ≤ rxBuffSize := by
  have hr := ringRun_reached rxBuffSize calls
  refine ⟨fun h => ?_, fun h => ⟨(hr.1 h).2.2, (ringRun_follows rxBuffSize calls).2,
    ringRun_sublist rxBuffSize calls⟩⟩
  by_contra hlong
  exact Nat.lt_irrefl _ (h.1 _ (hr.2 (Nat.lt_of_not_le hlong)))

/-- With the byte after the first 1024, offset 1024 of a 1024-byte buffer is written. -/
theorem ring_writes_behind_buffer :
    ¬ RingOk 1024 [.event (List.replicate 1024 0x61), .event [0x62]] := by
  intro h
  have h₁ : (received [.event (List.replicate 1024 0x61), .event [0x62]]).length = 1025 := by
    change (List.replicate 1024 (0x61 : UInt8) ++ ([0x62] ++ [])).length = 1025
    rw [List.length_append, List.length_replicate]
    rfl
  have hr := ringRun_reached 1024 [.event (List.replicate 1024 0x61), .event [0x62]]
  rw [h₁] at hr
  exact Nat.lt_irrefl _ (h.1 _ (hr.2 (by decide)))

end Esp32Project.Console
