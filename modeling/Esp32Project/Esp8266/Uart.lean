import Esp32Project.Lib.LossyQueue
import Mathlib.Data.List.Induction
import Mathlib.Logic.Function.Basic

/-!
The receive buffer of the ESP8266 console: `uart0_rx_intr_handler` (uart.c)
fills it and `uart_getc` (lua.c) reads it. Positions are offsets from
`pRcvMsgBuff`, and the memory goes on behind the bytes that `uart_init_new`
allocates. `uart_getc` looks for a byte before it locks the interrupts, so an
interrupt may come between its test and its reading.
-/

set_option autoImplicit false

namespace Esp32Project.Esp8266
open Esp32Project.Lib

def rxBuffSize : Nat := 0xff

inductive RcvMsgBuffState where
  | underWrite
  | writeOver
  deriving DecidableEq, Repr

structure RcvMsgBuff where
  /-- The bytes from `pRcvMsgBuff` on. -/
  buf : Nat → UInt8
  writePos : Nat
  readPos : Nat
  buffState : RcvMsgBuffState

inductive IntrStatus where
  | frmErr
  | rxfifoFull
  | rxfifoTout
  | txfifoEmpty
  | other
  deriving DecidableEq, Repr

/-- `uart_init_new`. -/
def RcvMsgBuff.init : RcvMsgBuff := ⟨fun _ => 0, 0, 0, .underWrite⟩

/-- One pass of `uart0_rx_intr_handler`; `rcvChar` is what the FIFO register
gives. A timeout comes after the full interrupt has taken the bytes, and what
it reads is thrown away. -/
def uart0RxIntrHandler (r : RcvMsgBuff) (status : IntrStatus) (rcvChar : UInt8) : RcvMsgBuff :=
  match status with
  | .rxfifoFull =>
    let r := { r with buf := Function.update r.buf r.writePos rcvChar }
    let r := if rcvChar = 0x0d ∨ rcvChar = 0x0a then { r with buffState := .writeOver } else r
    let r := { r with writePos := r.writePos + 1 }
    if r.writePos = r.readPos then
      if r.readPos = rxBuffSize then { r with readPos := 0 }
      else { r with readPos := r.readPos + 1 }
    else r
  | .frmErr | .rxfifoTout | .txfifoEmpty | .other => r

/-- The buffer, whether `uart_getc` is past its test, and what it returned so far. -/
structure Console where
  rcvMsgBuff : RcvMsgBuff
  inGetc : Bool
  out : List UInt8

def Console.init : Console := ⟨.init, false, []⟩

inductive RingEvent where
  | intr : IntrStatus → UInt8 → RingEvent
  /-- `uart_getc` goes on: up to its lock, and from there to its end. -/
  | getc : RingEvent
  deriving DecidableEq, Repr

/-- `uart_getc` up to its lock; on an empty buffer it returns false at once. -/
def getcTest (s : Console) : Console :=
  if s.rcvMsgBuff.writePos = s.rcvMsgBuff.readPos then s else { s with inGetc := true }

def getcTake (s : Console) : Console :=
  let r := s.rcvMsgBuff
  let c := r.buf r.readPos
  let r :=
    if r.readPos = rxBuffSize then { r with readPos := 0 }
    else { r with readPos := r.readPos + 1 }
  ⟨r, false, s.out ++ [c]⟩

def ringStep (s : Console) : RingEvent → Console
  | .intr status c => { s with rcvMsgBuff := uart0RxIntrHandler s.rcvMsgBuff status c }
  | .getc => if s.inGetc then getcTake s else getcTest s

def ringRun (events : List RingEvent) : Console := events.foldl ringStep .init

def received (events : List RingEvent) : List UInt8 :=
  events.flatMap fun
    | .intr .rxfifoFull c => [c]
    | _ => []

def queueOp (s : Console) : RingEvent → List (LossyQueue.Op UInt8)
  | .intr .rxfifoFull c => [.put c]
  | .intr _ _ => []
  | .getc => if s.inGetc then [.get] else []

def queueOps : Console → List RingEvent → List (LossyQueue.Op UInt8)
  | _, [] => []
  | s, e :: es => queueOp s e ++ queueOps (ringStep s e) es

/-- Both positions are in the allocated bytes, now and ever before, and the
bytes returned are those of a queue of RX_BUFF_SIZE bytes that loses its oldest
ones. -/
def RingOk (events : List RingEvent) : Prop :=
  (∀ es, es <+: events →
    (ringRun es).rcvMsgBuff.writePos < rxBuffSize ∧ (ringRun es).rcvMsgBuff.readPos < rxBuffSize) ∧
  (ringRun events).out = (LossyQueue.run rxBuffSize (queueOps .init events)).given

/-- While no place behind the buffer is in use the two positions only move up,
and the bytes between them are those pending in the queue. -/
structure Linear (s : Console) (t : LossyQueue.State UInt8) : Prop where
  read_add : s.rcvMsgBuff.readPos + t.pending.length = s.rcvMsgBuff.writePos
  bytes : ∀ i b, t.pending[i]? = some b → s.rcvMsgBuff.buf (s.rcvMsgBuff.readPos + i) = b
  out_eq : s.out = t.given
  busy : s.inGetc = true → t.pending ≠ []

theorem linear_init : Linear .init ⟨[], []⟩ := by
  refine ⟨rfl, fun i b h => ?_, rfl, fun h => ?_⟩
  · simp at h
  · cases h

theorem Linear.read_le {s : Console} {t : LossyQueue.State UInt8} (h : Linear s t) :
    s.rcvMsgBuff.readPos ≤ s.rcvMsgBuff.writePos := by
  rw [← h.read_add]
  exact Nat.le_add_right _ _

theorem handler_linear {s : Console} {t : LossyQueue.State UInt8} (h : Linear s t) (c : UInt8)
    (hw : s.rcvMsgBuff.writePos < rxBuffSize) :
    Linear (ringStep s (.intr .rxfifoFull c)) (LossyQueue.step rxBuffSize t (.put c)) ∧
      (ringStep s (.intr .rxfifoFull c)).rcvMsgBuff.writePos = s.rcvMsgBuff.writePos + 1 := by
  have hle := h.read_le
  have hadd := h.read_add
  have hpush : LossyQueue.push rxBuffSize t.pending c = t.pending ++ [c] :=
    LossyQueue.push_of_lt c (by omega)
  -- the reader is behind, so the handler never pushes it ahead
  have hne : s.rcvMsgBuff.writePos + 1 ≠ s.rcvMsgBuff.readPos := by omega
  have hstep : ∃ state, ringStep s (.intr .rxfifoFull c) = { s with rcvMsgBuff :=
      ⟨Function.update s.rcvMsgBuff.buf s.rcvMsgBuff.writePos c, s.rcvMsgBuff.writePos + 1,
        s.rcvMsgBuff.readPos, state⟩ } := by
    by_cases hc : c = 0x0d ∨ c = 0x0a <;>
      exact ⟨_, by simp only [ringStep, uart0RxIntrHandler, hc, if_true, if_false, if_neg hne]; rfl⟩
  obtain ⟨state, hstep⟩ := hstep
  rw [hstep]
  simp only [LossyQueue.step, hpush]
  refine ⟨⟨?_, fun i b hi => ?_, h.out_eq, fun _ => ?_⟩, trivial⟩
  · simp only [List.length_append, List.length_singleton]
    omega
  · simp only at hi ⊢
    rcases Nat.lt_trichotomy i t.pending.length with hlt | rfl | hgt
    · rw [Function.update_of_ne (by omega)]
      exact h.bytes i b (by rwa [List.getElem?_append_left hlt] at hi)
    · rw [hadd, Function.update_self]
      simpa using hi
    · simp [List.getElem?_append_right (Nat.le_of_lt hgt), Nat.sub_ne_zero_of_lt hgt] at hi
  · simp

theorem getcTest_linear {s : Console} {t : LossyQueue.State UInt8} (h : Linear s t) :
    Linear (getcTest s) t ∧ (getcTest s).rcvMsgBuff = s.rcvMsgBuff := by
  unfold getcTest
  split
  · exact ⟨h, rfl⟩
  · rename_i hne
    refine ⟨⟨h.read_add, h.bytes, h.out_eq, fun _ hnil => hne ?_⟩, rfl⟩
    have hadd := h.read_add
    rw [hnil] at hadd
    exact hadd.symm

theorem getcTake_linear {s : Console} {t : LossyQueue.State UInt8} (h : Linear s t)
    (hbusy : s.inGetc = true) (hw : s.rcvMsgBuff.writePos ≤ rxBuffSize) :
    Linear (getcTake s) (LossyQueue.step rxBuffSize t .get) ∧
      (getcTake s).rcvMsgBuff.writePos = s.rcvMsgBuff.writePos := by
  obtain ⟨b, q, hq⟩ := List.exists_cons_of_ne_nil (h.busy hbusy)
  have hadd := h.read_add
  rw [hq, List.length_cons] at hadd
  have hne : s.rcvMsgBuff.readPos ≠ rxBuffSize := by omega
  have hfirst : s.rcvMsgBuff.buf s.rcvMsgBuff.readPos = b := h.bytes 0 b (by rw [hq]; rfl)
  simp only [getcTake, if_neg hne, LossyQueue.step, hq, List.tail_cons, List.head?_cons,
    Option.toList_some, hfirst]
  refine ⟨⟨?_, fun i b' hi => ?_, by rw [h.out_eq], fun h' => ?_⟩, trivial⟩
  · simp only
    omega
  · simp only
    rw [Nat.add_assoc, Nat.add_comm 1]
    exact h.bytes (i + 1) b' (by rw [hq]; exact hi)
  · cases h'

theorem ringStep_linear {s : Console} {t : LossyQueue.State UInt8} (h : Linear s t) (e : RingEvent)
    (hw : s.rcvMsgBuff.writePos + (received [e]).length ≤ rxBuffSize) :
    Linear (ringStep s e) ((queueOp s e).foldl (LossyQueue.step rxBuffSize) t) ∧
      (ringStep s e).rcvMsgBuff.writePos = s.rcvMsgBuff.writePos + (received [e]).length := by
  cases e with
  | intr status c =>
    cases status with
    | rxfifoFull => exact handler_linear h c hw
    | frmErr | rxfifoTout | txfifoEmpty | other =>
      exact ⟨⟨h.read_add, h.bytes, h.out_eq, h.busy⟩, rfl⟩
  | getc =>
    cases hbusy : s.inGetc with
    | true =>
      simp only [ringStep, queueOp, hbusy, if_true]
      exact getcTake_linear h hbusy hw
    | false =>
      simp only [ringStep, queueOp, hbusy, Bool.false_eq_true, if_false]
      obtain ⟨hlin, hsame⟩ := getcTest_linear h
      exact ⟨hlin, congrArg RcvMsgBuff.writePos hsame⟩

theorem received_append (es fs : List RingEvent) :
    received (es ++ fs) = received es ++ received fs := List.flatMap_append

theorem foldl_linear {s : Console} {t : LossyQueue.State UInt8} (events : List RingEvent)
    (h : Linear s t)
    (hw : s.rcvMsgBuff.writePos + (received events).length ≤ rxBuffSize) :
    Linear (events.foldl ringStep s) ((queueOps s events).foldl (LossyQueue.step rxBuffSize) t) ∧
      (events.foldl ringStep s).rcvMsgBuff.writePos =
        s.rcvMsgBuff.writePos + (received events).length := by
  induction events generalizing s t with
  | nil => exact ⟨h, rfl⟩
  | cons e es ih =>
    have hlen : (received (e :: es)).length = (received [e]).length + (received es).length := by
      rw [← List.singleton_append, received_append, List.length_append]
    rw [hlen] at hw
    obtain ⟨hlin, hpos⟩ := ringStep_linear h e (by omega)
    rw [queueOps, List.foldl_append, hlen, ← Nat.add_assoc, ← hpos]
    exact ih hlin (by omega)

theorem ringRun_linear {events : List RingEvent} (h : (received events).length ≤ rxBuffSize) :
    Linear (ringRun events) (LossyQueue.run rxBuffSize (queueOps .init events)) ∧
      (ringRun events).rcvMsgBuff.writePos = (received events).length := by
  have hw : Console.init.rcvMsgBuff.writePos + (received events).length ≤ rxBuffSize := by
    simpa [Console.init, RcvMsgBuff.init] using h
  obtain ⟨hlin, hpos⟩ := foldl_linear events linear_init hw
  exact ⟨hlin, hpos.trans (Nat.zero_add _)⟩

theorem received_lt_of_inside {events : List RingEvent}
    (h : ∀ es, es <+: events → (ringRun es).rcvMsgBuff.writePos < rxBuffSize) :
    (received events).length < rxBuffSize := by
  induction events using List.reverseRecOn with
  | nil => decide
  | append_singleton es e ih =>
    have hes := ih fun fs hfs => h fs (hfs.trans (List.prefix_append es [e]))
    have hone : (received [e]).length ≤ 1 := by
      cases e with
      | intr status c => cases status <;> simp [received]
      | getc => simp [received]
    have hlen : (received (es ++ [e])).length ≤ rxBuffSize := by
      rw [received_append, List.length_append]
      omega
    rw [← (ringRun_linear hlen).2]
    exact h _ (List.prefix_refl _)

/-- The handler never goes back to the start of the buffer, so the buffer is
used properly until the byte that fills it arrives. -/
theorem esp8266_ringOk_iff (events : List RingEvent) :
    RingOk events ↔ (received events).length < rxBuffSize := by
  refine ⟨fun h => received_lt_of_inside fun es hes => (h.1 es hes).1, fun h => ⟨?_, ?_⟩⟩
  · rintro es ⟨fs, rfl⟩
    rw [received_append, List.length_append] at h
    obtain ⟨hlin, hpos⟩ := ringRun_linear (show (received es).length ≤ rxBuffSize by omega)
    have hle := hlin.read_le
    omega
  · exact (ringRun_linear (Nat.le_of_lt h)).1.out_eq

/-- The 256th byte received is written behind the buffer. -/
theorem esp8266_ring_leaves_buffer :
    ¬ RingOk (List.replicate 256 (.intr .rxfifoFull 0x61)) := by
  intro h
  have hrec : ∀ n, (received (List.replicate n (.intr .rxfifoFull 0x61))).length = n := by
    intro n
    induction n with
    | zero => rfl
    | succ n ih => rw [List.replicate_succ, ← List.singleton_append, received_append,
        List.length_append, ih, Nat.add_comm]; rfl
  have hlt := received_lt_of_inside fun es hes => (h.1 es hes).1
  rw [hrec] at hlt
  exact absurd hlt (by decide)

end Esp32Project.Esp8266
