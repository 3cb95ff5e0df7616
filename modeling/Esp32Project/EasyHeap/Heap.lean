import Esp32Project.Lib.ByteMem
import Mathlib.Algebra.Group.Nat.Defs

/-!
The offset heap of easy_heap.c. Pointers into the heap are offsets from the
aligned start `ram` of `ram_heap`, and the headers are read from the bytes
there. `ptr` and `ptr2` of `easy_heap_alloc` are `uint8_t`; the room of a
block is computed in 32-bit arithmetic. A result `none` of a whole operation
is a loop that never ends.
-/

set_option autoImplicit false

namespace Esp32Project.EasyHeap
open Esp32Project.Lib

def heapSize : Nat := 1024
def heapAlignment : Nat := 4
def minSizeAligned : Nat := 8

def sizeofMemHeap : Nat := 8

structure Heap where
  /-- `ram != NULL` -/
  ready : Bool
  ram : ByteMem
  pfree : Nat
  heapEnd : Nat

def Heap.boot : Heap := ⟨false, fun _ => 0, 0, 0⟩

def Heap.prev (h : Heap) (a : Nat) : Nat := h.ram.read16 a
def Heap.next (h : Heap) (a : Nat) : Nat := h.ram.read16 (a + 2)
def Heap.used (h : Heap) (a : Nat) : UInt8 := h.ram (a + 4)

def Heap.setPrev (h : Heap) (a v : Nat) : Heap := { h with ram := h.ram.write16 a v }
def Heap.setNext (h : Heap) (a v : Nat) : Heap := { h with ram := h.ram.write16 (a + 2) v }
def Heap.setUsed (h : Heap) (a : Nat) (v : UInt8) : Heap :=
  { h with ram := h.ram.write8 (a + 4) v }

def plugNext (h : Heap) (heap : Nat) : Heap :=
  let nheap := h.next heap
  if heap ≠ nheap ∧ h.used nheap = 0 ∧ nheap ≠ h.heapEnd then
    let h := if h.pfree = nheap then { h with pfree := heap } else h
    let h := h.setNext heap (h.next nheap)
    h.setPrev (h.next nheap) heap
  else h

def plugPrev (h : Heap) (heap : Nat) : Heap :=
  let pheap := h.prev heap
  if heap ≠ pheap ∧ h.used pheap = 0 then
    let h := if h.pfree = heap then { h with pfree := pheap } else h
    let h := h.setNext pheap (h.next heap)
    h.setPrev (h.next heap) pheap
  else h

def plugHole (h : Heap) (heap : Nat) : Heap := plugPrev (plugNext h heap) heap

def easyHeapInit (h : Heap) : Heap :=
  let h := { h with ready := true, pfree := 0 }
  let h := ((h.setUsed 0 0).setPrev 0 0).setNext 0 heapSize
  let h := { h with heapEnd := heapSize + sizeofMemHeap }
  ((h.setPrev h.heapEnd 0).setNext h.heapEnd 0).setUsed h.heapEnd 1

def alignedSize (size : Nat) : Nat := (size + heapAlignment - 1) / heapAlignment * heapAlignment

/-- `mem->next - (ptr + sizeof(struct mem_heap))` in 32 bits. -/
def Heap.room (h : Heap) (ptr : Nat) : Nat :=
  (h.next ptr + 2 ^ 32 - (ptr + sizeofMemHeap)) % 2 ^ 32

def Heap.fits (h : Heap) (ptr n : Nat) : Bool := h.used ptr == 0 && n ≤ h.room ptr

/-- The `for` of `easy_heap_alloc`: the block taken, or the end of the loop.
`ptr` has 256 values and nothing is written meanwhile, so more rounds than
that never end. -/
def search (h : Heap) (n : Nat) : Nat → Nat → Option (Option Nat)
  | 0, _ => none
  | fuel+1, ptr =>
    if ptr < heapSize then
      if h.fits ptr n then some (some ptr) else search h n fuel (h.next ptr % 256)
    else some none

def splitBlock (h : Heap) (ptr n : Nat) : Heap :=
  let ptr2 := (ptr + sizeofMemHeap + n) % 256
  let h := h.setUsed ptr2 0
  let h := h.setNext ptr2 (h.next ptr)
  let h := h.setPrev ptr2 ptr
  let h := h.setNext ptr ptr2
  if h.next ptr2 ≠ heapSize then h.setPrev (h.next ptr2) ptr2 else h

/-- The `while` that moves `pfree`. Offsets have 16 bits. -/
def advance (h : Heap) : Nat → Nat → Option Nat
  | 0, _ => none
  | fuel+1, p =>
    if h.used p ≠ 0 ∧ p ≠ h.heapEnd then advance h fuel (h.next p) else some p

/-- Marking the block found, and moving `pfree` on when it was there. -/
def takeBlock (h : Heap) (ptr : Nat) : Option (Heap × Option Nat) :=
  let h := h.setUsed ptr 1
  if ptr = h.pfree then
    (advance h 65537 h.pfree).map fun p => ({ h with pfree := p }, some (ptr + sizeofMemHeap))
  else some (h, some (ptr + sizeofMemHeap))

/-- `easy_heap_alloc`: the payload offset, `none` for NULL. -/
def easyHeapAlloc (h : Heap) (size : Nat) : Option (Heap × Option Nat) :=
  if ¬ h.ready then some (h, none)
  else if size = 0 then some (h, none)
  else
    let n := alignedSize size
    if heapSize < n then some (h, none)
    else
      match search h n 257 (h.pfree % 256) with
      | none => none
      | some none => some (h, none)
      | some (some ptr) =>
        takeBlock (if n + minSizeAligned ≤ h.room ptr then splitBlock h ptr n else h) ptr

def easyHeapFree (h : Heap) (heap : Option Nat) : Heap :=
  match heap with
  | none => h
  | some heap =>
    if heapSize < heap then h
    else
      let mem := heap - sizeofMemHeap
      let h := h.setUsed mem 0
      let h := if mem < h.pfree then { h with pfree := mem } else h
      plugHole h mem

/-- The heap with the payload pointers its callers hold and what they asked for. -/
structure Client where
  heap : Heap
  live : List (Nat × Nat)

inductive Call where
  | alloc : Nat → Call
  | free : Nat → Call
  deriving DecidableEq, Repr

def Client.init : Client := ⟨easyHeapInit Heap.boot, []⟩

def step (s : Client) : Call → Option Client
  | .alloc size =>
    (easyHeapAlloc s.heap size).map fun (h, p) =>
      ⟨h, p.toList.map (fun p => (p, size)) ++ s.live⟩
  | .free p => some ⟨easyHeapFree s.heap (some p), s.live.filter (fun e => e.1 ≠ p)⟩

/-- A size is a `uint16_t`, and callers free only what they were given and
have not freed yet. -/
def legal (s : Client) : Call → Prop
  | .alloc size => size < 2 ^ 16
  | .free p => p ∈ s.live.map Prod.fst

end Esp32Project.EasyHeap
