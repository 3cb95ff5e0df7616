import Esp32Project.Lib.Circular

/-!
The ring buffer of ringbuf.c. Pointers are offsets from `p_o`, and a call of
`rb_put` or `rb_get` is not interrupted by another.
-/

set_option autoImplicit false

namespace Esp32Project.Mqtt
open Esp32Project.Lib

/-- RINGBUF, with the bytes from `p_o` on. Their number is `size`. -/
structure RingBuf where
  mem : List UInt8
  pR : Nat
  pW : Nat
  fillCnt : Nat
  blockSize : Nat

/-- `none` is the result -1. -/
def rbInit (buf : List UInt8) (blockSize : Nat) : Option RingBuf :=
  if buf.length < 2 then none
  else if buf.length % blockSize ≠ 0 then none
  else some ⟨buf, 0, 0, 0, blockSize⟩

/-- A pointer behind a block, rolled back if it goes past the end. -/
def RingBuf.advance (r : RingBuf) (p : Nat) : Nat :=
  if p + r.blockSize ≥ r.mem.length then 0 else p + r.blockSize

/-- `block` is what the caller's pointer leads to; `false` is the result -1. -/
def rbPut (r : RingBuf) (block : List UInt8) : Option (RingBuf × Bool) :=
  if r.fillCnt ≥ r.mem.length then return (r, false) else do
    let mem ← storeAll r.mem r.pW (block.take r.blockSize)
    return ({ r with mem, fillCnt := r.fillCnt + r.blockSize, pW := r.advance r.pW }, true)

/-- The block read; `none` is the result -1. -/
def rbGet (r : RingBuf) : RingBuf × Option (List UInt8) :=
  if r.fillCnt = 0 then (r, none)
  else ({ r with fillCnt := r.fillCnt - r.blockSize, pR := r.advance r.pR },
    some ((r.mem.drop r.pR).take r.blockSize))

def rbAvailable (r : RingBuf) : Nat := r.mem.length - r.fillCnt

/-- A buffer that holds the queue `q` of bytes. -/
structure Queues (size b : Nat) (r : RingBuf) (q : List UInt8) : Prop where
  mem_length : r.mem.length = size
  blockSize : r.blockSize = b
  fillCnt : r.fillCnt = q.length
  room : q.length ≤ size
  read_lt : r.pR < size
  write : r.pW = place size r.pR q.length
  window : Window size r.mem r.pR q
  pos : 0 < b
  dvd_size : b ∣ size
  dvd_fill : b ∣ q.length
  dvd_read : b ∣ r.pR

section

variable {size b : Nat} {r : RingBuf} {q : List UInt8}

theorem rbInit_queues {buf : List UInt8} (h : rbInit buf b = some r) (hb : 0 < b) :
    Queues buf.length b r [] := by
  unfold rbInit at h
  split at h
  · cases h
  split at h
  · cases h
  next hsize hdvd =>
    obtain rfl := Option.some.inj h
    have hpos : 0 < buf.length := by omega
    exact ⟨rfl, rfl, rfl, Nat.zero_le _, hpos, by simp [place, hpos], Window.nil, hb,
      Nat.dvd_of_mod_eq_zero (by simpa using hdvd), Nat.dvd_zero _, Nat.dvd_zero _⟩

theorem add_le_of_dvd {m n : Nat} (hm : b ∣ m) (hn : b ∣ n) (h : m < n) : m + b ≤ n := by
  obtain ⟨i, rfl⟩ := hm
  obtain ⟨j, rfl⟩ := hn
  have := Nat.mul_le_mul_left b (Nat.lt_of_mul_lt_mul_left h)
  rwa [Nat.mul_succ] at this

theorem Queues.write_lt (h : Queues size b r q) : r.pW < size :=
  h.write ▸ place_lt h.read_lt h.room

theorem Queues.dvd_write (h : Queues size b r q) : b ∣ r.pW := by
  have hsum := Nat.dvd_add h.dvd_read h.dvd_fill
  rw [h.write, place]
  split
  · exact hsum
  · exact Nat.dvd_sub hsum h.dvd_size

theorem rbPut_queues (h : Queues size b r q) (block : List UInt8) (hblock : block.length = b) :
    if q.length < size then ∃ r', rbPut r block = some (r', true) ∧ Queues size b r' (q ++ block)
    else rbPut r block = some (r, false) := by
  have hsize := h.mem_length
  have hfill := h.fillCnt
  have hbs := h.blockSize
  unfold rbPut
  by_cases hroom : q.length < size
  · have hfits := add_le_of_dvd h.dvd_fill h.dvd_size hroom
    have hend := add_le_of_dvd h.dvd_write h.dvd_size h.write_lt
    have htake : block.take r.blockSize = block := List.take_of_length_le (by omega)
    rw [if_pos hroom, if_neg (by omega), htake, storeAll_eq (by omega)]
    refine ⟨_, rfl, ?_⟩
    have hw := h.write
    refine ⟨?_, hbs, ?_, ?_, h.read_lt, ?_, ?_, h.pos, h.dvd_size, ?_, h.dvd_read⟩
    · simp only [List.length_append, List.length_take, List.length_drop]
      omega
    · simp only [List.length_append]
      omega
    · rw [List.length_append]
      omega
    · simp only [RingBuf.advance, List.length_append]
      have := h.read_lt
      have := h.pos
      unfold place at hw ⊢
      split at hw <;> split <;> split <;> omega
    · have := h.window.store (c := block) hsize (by omega) (by omega)
      rwa [← hw] at this
    · rw [List.length_append, hblock]
      exact Nat.dvd_add h.dvd_fill (Nat.dvd_refl b)
  · rw [if_neg hroom, if_pos (by omega)]
    rfl

theorem rbGet_queues (h : Queues size b r q) :
    if q = [] then rbGet r = (r, none)
    else ∃ r', rbGet r = (r', some (q.take b)) ∧ Queues size b r' (q.drop b) := by
  have hsize := h.mem_length
  have hfill := h.fillCnt
  have hbs := h.blockSize
  unfold rbGet
  by_cases hq : q = []
  · rw [if_pos hq, if_pos (by rw [hfill, hq]; rfl)]
  · have hpos : 0 < q.length := List.length_pos_iff.mpr hq
    have hb := add_le_of_dvd (Nat.dvd_zero b) h.dvd_fill hpos
    have hend := add_le_of_dvd h.dvd_read h.dvd_size h.read_lt
    have hroom := h.room
    have hread : (r.mem.drop r.pR).take r.blockSize = q.take b := by
      rw [hbs]
      exact h.window.take (by omega) hend
    have hnext : r.advance r.pR = place size r.pR b := by
      unfold RingBuf.advance place
      rw [hsize, hbs]
      split <;> split <;> omega
    rw [if_neg hq, if_neg (by omega), hread]
    refine ⟨_, rfl, hsize, hbs, ?_, ?_, ?_, ?_, ?_, h.pos, h.dvd_size, ?_, ?_⟩
    · simp only [List.length_drop]
      omega
    · rw [List.length_drop]
      omega
    · exact hnext ▸ place_lt h.read_lt (by omega)
    · change r.pW = place size (r.advance r.pR) _
      rw [hnext, place_place h.read_lt (by rw [List.length_drop]; omega), List.length_drop,
        Nat.add_sub_cancel' (by omega)]
      exact h.write
    · change Window size r.mem (r.advance r.pR) _
      rw [hnext]
      exact h.window.drop h.read_lt hroom b
    · rw [List.length_drop]
      exact Nat.dvd_sub h.dvd_fill (Nat.dvd_refl b)
    · change b ∣ r.advance r.pR
      rw [hnext, place]
      have hsum := Nat.dvd_add h.dvd_read (Nat.dvd_refl b)
      split
      · exact hsum
      · exact Nat.dvd_sub hsum h.dvd_size

end

inductive RingCall where
  | put (block : List UInt8)
  | get
  deriving DecidableEq, Repr

inductive RingResult where
  | put (ok : Bool)
  | got (block : Option (List UInt8))
  deriving DecidableEq, Repr

def ringStep (r : RingBuf) : RingCall → Option (RingBuf × RingResult)
  | .put block => (rbPut r block).map fun (r, ok) => (r, .put ok)
  | .get => let (r, block) := rbGet r; some (r, .got block)

/-- The results of a run, and what is left to be read behind it. -/
def ringRun : RingBuf → List RingCall → Option (List RingResult × Nat)
  | r, [] => some ([], rbAvailable r)
  | r, call :: calls => do
    let (r, result) ← ringStep r call
    let (results, available) ← ringRun r calls
    return (result :: results, available)

/-- A queue of bytes that takes and gives `b` at a time and holds up to `size`. -/
def fifoStep (size b : Nat) (q : List UInt8) : RingCall → List UInt8 × RingResult
  | .put block => if q.length < size then (q ++ block, .put true) else (q, .put false)
  | .get => if q = [] then (q, .got none) else (q.drop b, .got (some (q.take b)))

def fifoRun (size b : Nat) : List UInt8 → List RingCall → List RingResult × Nat
  | q, [] => ([], size - q.length)
  | q, call :: calls =>
    let (q, result) := fifoStep size b q call
    let (results, available) := fifoRun size b q calls
    (result :: results, available)

/-- A call that passes as many bytes as the buffer takes. -/
def RingCall.Whole (b : Nat) : RingCall → Prop
  | .put block => block.length = b
  | .get => True

section

variable {size b : Nat} {r : RingBuf} {q : List UInt8}

theorem ringStep_queues (h : Queues size b r q) {call : RingCall} (hcall : call.Whole b) :
    ∃ r', ringStep r call = some (r', (fifoStep size b q call).2) ∧
      Queues size b r' (fifoStep size b q call).1 := by
  cases call with
  | put block =>
    have hput := rbPut_queues h block hcall
    rw [ringStep, fifoStep]
    split at hput
    next hlt =>
      obtain ⟨r', hr, hq⟩ := hput
      rw [hr, if_pos hlt]
      exact ⟨r', rfl, hq⟩
    next hge =>
      rw [hput, if_neg hge]
      exact ⟨r, rfl, h⟩
  | get =>
    have hget := rbGet_queues h
    rw [ringStep, fifoStep]
    split at hget
    next hnil =>
      rw [hget, if_pos hnil]
      exact ⟨r, rfl, h⟩
    next hne =>
      obtain ⟨r', hr, hq⟩ := hget
      rw [hr, if_neg hne]
      exact ⟨r', rfl, hq⟩

theorem ringRun_queues (h : Queues size b r q) {calls : List RingCall}
    (hcalls : ∀ call ∈ calls, call.Whole b) : ringRun r calls = some (fifoRun size b q calls) := by
  induction calls generalizing r q with
  | nil => rw [ringRun, fifoRun, rbAvailable, h.mem_length, h.fillCnt]
  | cons call calls ih =>
    obtain ⟨r', hr, hq⟩ := ringStep_queues h (hcalls call List.mem_cons_self)
    have hrest := ih hq fun call' h' => hcalls call' (List.mem_cons_of_mem _ h')
    simp only [ringRun, hr, hrest, Option.bind_eq_bind, Option.bind_some]
    rfl

/-- From `rb_init` on, the ring buffer is a queue of as many bytes as the array has. -/
theorem ringRun_fifo {buf : List UInt8} (hinit : rbInit buf b = some r) (hb : 0 < b)
    {calls : List RingCall} (hcalls : ∀ call ∈ calls, call.Whole b) :
    ringRun r calls = some (fifoRun buf.length b [] calls) :=
  ringRun_queues (rbInit_queues hinit hb) hcalls

/-- Two blocks go in, a third finds no room, and they come out in order. -/
theorem ringRun_fifo_two : ringRun ⟨[0, 0, 0, 0], 0, 0, 0, 2⟩
    [.put [1, 2], .get, .put [3, 4], .put [5, 6], .put [7, 8], .get, .get, .get] =
    some (fifoRun 4 2 []
      [.put [1, 2], .get, .put [3, 4], .put [5, 6], .put [7, 8], .get, .get, .get]) :=
  @ringRun_fifo 2 _ [0, 0, 0, 0] rfl (by decide) _ (by simp [RingCall.Whole])

end

end Esp32Project.Mqtt
