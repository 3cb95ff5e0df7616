import Esp32Project.Lib.Chain
import Esp32Project.Lib.Range
import Mathlib.Algebra.Group.Nat.Defs

/-!
The buddy allocator of easy_mem.c. Addresses are natural numbers and the null
pointer is `none`. A chunk header is kept whole at the address of its chunk:
headers sit a multiple of eight bytes from `mem_memory`, so two different ones
never overlap in part. A result `none` of a whole operation is undefined
behaviour (a list head past the end of `mem_heads`, a null chunk) or a walk
that never ends.
-/

set_option autoImplicit false

namespace Esp32Project.EasyMem

def maxOrder : Nat := 3
def minChunkSize : Nat := 8
def maxChunkSize : Nat := minChunkSize * 2 ^ maxOrder
def maxChunkNum : Nat := 1
def memAlignment : Nat := 4

/-- sizeof(struct chunk): a 32-bit pointer and four bytes. -/
def sizeofChunk : Nat := 8

def layerSize (order : Nat) : Nat := minChunkSize * 2 ^ order
def layerHeadsSize (order : Nat) : Nat := (2 ^ order - 1) * sizeofChunk

/-- The bytes of a chunk of this order, its own header and all inner ones included. -/
def chunkBytes (order : Nat) : Nat := layerSize order + layerHeadsSize (order + 1)

def sizeofMemTotal : Nat :=
  maxChunkNum * maxChunkSize + layerHeadsSize (maxOrder + 1) + memAlignment - 1

def memAlign (mem : Nat) : Nat := (mem + memAlignment - 1) / memAlignment * memAlignment

structure Chunk where
  next : Option Nat
  order : Nat
  currOrder : Nat
  used : Nat
  deriving DecidableEq, Repr

structure Arena where
  memMemory : Option Nat
  memHeads : Nat → Option Nat
  chunk : Nat → Chunk

def Arena.boot : Arena := ⟨none, fun _ => none, fun _ => ⟨none, 0, 0, 0⟩⟩

def Arena.next (s : Arena) (c : Nat) : Option Nat := (s.chunk c).next
def Arena.order (s : Arena) (c : Nat) : Nat := (s.chunk c).order
def Arena.currOrder (s : Arena) (c : Nat) : Nat := (s.chunk c).currOrder

def Arena.setHead (s : Arena) (k : Nat) (p : Option Nat) : Arena :=
  { s with memHeads := Function.update s.memHeads k p }

def Arena.setChunk (s : Arena) (c : Nat) (h : Chunk) : Arena :=
  { s with chunk := Function.update s.chunk c h }

def Arena.setNext (s : Arena) (c : Nat) (p : Option Nat) : Arena :=
  s.setChunk c { s.chunk c with next := p }

def Arena.setCurrOrder (s : Arena) (c k : Nat) : Arena :=
  s.setChunk c { s.chunk c with currOrder := k }

def Arena.setUsed (s : Arena) (c u : Nat) : Arena :=
  s.setChunk c { s.chunk c with used := u }

def Arena.addToHead (s : Arena) (k item : Nat) : Arena :=
  match s.memHeads k with
  | none => (s.setHead k (some item)).setNext item none
  | some head => (s.setNext item (some head)).setHead k (some item)

/-- A walk along more nodes than there are header slots meets one again, and
nothing changes while it walks. -/
def walkLimit : Nat := sizeofMemTotal / sizeofChunk + 1

/-- The loop of `remove_from_chain`, with `pos` and `prev` as it moves them. -/
def removeFromChain (k item : Nat) : Nat → Arena → Option Nat → Option Nat → Option Arena
  | 0, _, _, _ => none
  | _+1, s, _, none => some s
  | fuel+1, s, prev, some pos =>
    if pos = item then
      let s := match prev with
        | some q => s.setNext q (s.next pos)
        | none => s.setHead k (s.next pos)
      some (s.setNext item none)
    else removeFromChain k item fuel s (some pos) (s.next pos)

/-- `adjust_head`: the header moves to `newHead`; `next` and `curr_order` are
left there as they were. -/
def Arena.adjustHead (s : Arena) (h newHead : Nat) : Arena :=
  s.setChunk newHead
    { s.chunk newHead with order := s.order h, used := (s.chunk h).used }

def split (order : Nat) : Nat → Arena → Nat → Arena × Nat
  | cnt, s, c =>
    let s := s.addToHead cnt c
    let s := s.setCurrOrder c cnt
    let buddy := c + layerSize cnt + layerHeadsSize (cnt + 1)
    let s := s.setChunk buddy ⟨none, s.order c, s.currOrder c, 0⟩
    match cnt with
    | 0 => (s.setUsed buddy 1, buddy)
    | cnt'+1 =>
      if order < cnt'+1 then
        split order cnt' (s.adjustHead buddy (buddy + sizeofChunk)) (buddy + sizeofChunk)
      else (s.setUsed buddy 1, buddy)

/-- The `while` of `merge`: the first chunk of the list with this `order`. -/
def findOrder (s : Arena) (order : Nat) : Nat → Option Nat → Option (Option Nat)
  | 0, _ => none
  | _+1, none => some none
  | fuel+1, some tmp =>
    if s.order tmp = order then some (some tmp) else findOrder s order fuel (s.next tmp)

/-- `merge`. The first argument counts the lists from `order` on; when it is
zero the recursion has run past the end of `mem_heads`. -/
def merge : Nat → Arena → Nat → Nat → Option Arena
  | 0, _, _, _ => none
  | lists+1, s, memChunk, order =>
    match s.memHeads order with
    | none => some ((s.setUsed memChunk 0).setHead order (some memChunk))
    | some head =>
      match findOrder s (s.order memChunk) walkLimit (some head) with
      | none => none
      | some none => some s
      | some (some tmp) =>
        let length := layerSize order + layerHeadsSize (order + 1)
        if memChunk = tmp + length then
          merge lists (s.adjustHead tmp (tmp - sizeofChunk)) (tmp - sizeofChunk) (order + 1)
        else if memChunk + length = tmp then
          merge lists (s.adjustHead memChunk (memChunk - sizeofChunk))
            (memChunk - sizeofChunk) (order + 1)
        else some ((s.setUsed memChunk 0).addToHead order memChunk)

def easyMemInit (memTotal : Nat) (s : Arena) : Arena :=
  let mem := memAlign memTotal
  let s := { s with memMemory := some mem }
  let s := s.setHead maxOrder (some mem)
  s.setChunk mem ⟨none, maxOrder, maxOrder, 0⟩

/-- The first order from `order` on whose layer holds `q` smallest chunks. -/
def fitOrder (q : Nat) : Nat → Nat → Nat
  | 0, order => order
  | fuel+1, order => if 2 ^ order < q then fitOrder q fuel (order + 1) else order

def orderOf (size : Nat) : Nat := fitOrder (size / minChunkSize) (size / minChunkSize) 0

example : orderOf 64 = maxOrder := by decide +kernel

/-- The first non-empty list above `cnt`, and `MAX_ORDER + 1` when there is none. -/
def searchUp (s : Arena) : Nat → Nat → Nat
  | 0, cnt => cnt + 1
  | fuel+1, cnt =>
    if cnt + 1 ≤ maxOrder then
      if (s.memHeads (cnt + 1)).isSome then cnt + 1 else searchUp s fuel (cnt + 1)
    else cnt + 1

/-- `easy_mem_alloc`: the payload address, `none` for NULL. -/
def easyMemAlloc (s : Arena) (size : Nat) : Option (Arena × Option Nat) :=
  if maxChunkNum * maxChunkSize < size then some (s, none)
  else if s.memMemory = none then some (s, none)
  else
    let order := orderOf size
    match s.memHeads order with
    | none =>
      if order = maxOrder then some (s, none)
      else
        let cnt := searchUp s maxOrder order
        if maxOrder < cnt then none
        else
          match s.memHeads cnt with
          | none => none
          | some target =>
            (removeFromChain cnt target walkLimit s none (some target)).map fun s =>
              let s := s.adjustHead target (target + sizeofChunk)
              let (s, res) := split order (cnt - 1) s (target + sizeofChunk)
              (s, some (res + sizeofChunk))
    | some res =>
      (removeFromChain order res walkLimit (s.setUsed res 1) none (some res)).map fun s =>
        (s, some (res + sizeofChunk))

def easyMemFree (s : Arena) (mem : Option Nat) : Option Arena :=
  match mem with
  | none => some s
  | some mem =>
    let memMemory := s.memMemory.getD 0
    if mem < memMemory ∨ memMemory + sizeofMemTotal < mem then some s
    else
      let head := mem - sizeofChunk
      let currOrder := s.currOrder head
      merge (maxOrder + 1 - currOrder) s head currOrder

structure Client where
  arena : Arena
  live : List Nat

inductive Call where
  | alloc : Nat → Call
  | free : Nat → Call
  deriving DecidableEq, Repr

def Client.init (memTotal : Nat) : Client := ⟨easyMemInit memTotal Arena.boot, []⟩

def step (s : Client) : Call → Option Client
  | .alloc size =>
    (easyMemAlloc s.arena size).map fun (a, p) => ⟨a, p.toList ++ s.live⟩
  | .free p => (easyMemFree s.arena (some p)).map fun a => ⟨a, s.live.erase p⟩

/-- Callers free only what they were given and have not freed yet. -/
def legal (s : Client) : Call → Prop
  | .alloc _ => True
  | .free p => p ∈ s.live

end Esp32Project.EasyMem
