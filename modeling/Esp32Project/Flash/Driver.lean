import Esp32Project.Lib.ByteMem

/-!
The flash access of platform_flash.c, which the ESP8266 port repeats in
common.c and platform.c. The two differ in the test for flash-mapped addresses
only, which is a parameter here (0x40200000 and up on the ESP8266). Both units
are 4 bytes, so `x & blkmask` is `x % blksize` and `x & ~blkmask` is
`alignDown x`. No sum leaves 32 bits as long as the buffers lie in the address
space and the range in the flash.
-/

set_option autoImplicit false

namespace Esp32Project.Flash
open Esp32Project.Lib

def blksize : Nat := 4

def alignDown (x : Nat) : Nat := x / blksize * blksize

/-- The ESP32 test for addresses in the flash cache. -/
def isCacheFlashAddr (addr : Nat) : Bool := 0x3F400000 ≤ addr && addr < 0x3FC00000

inductive Op where
  | read
  | write
  deriving DecidableEq, Repr

/-- A call of `flash_read` or `flash_write`. -/
structure Prim where
  op : Op
  addr : Nat
  buf : Nat
  len : Nat
  deriving DecidableEq, Repr

/-- The port's test for flash-mapped addresses, and what the driver does not
decide: the addresses of its locals, the answers of `malloc`, and whether a
primitive fails and which bytes it then leaves. The first argument of an answer
counts the primitive calls made before. -/
structure Env where
  cached : Nat → Bool
  tmpdata : Nat
  back : Nat
  malloc : Nat → Nat → Option Nat
  fault : Nat → Prim → Option (Nat → UInt8)

/-- Memory, flash, and the primitive calls made, the latest first. -/
structure Machine where
  mem : ByteMem
  flash : ByteMem
  calls : List Prim

/-- `flash_read`, with `true` for ESP_OK. -/
def flashRead (e : Env) (m : Machine) (addr buf len : Nat) : Bool × Machine :=
  let p : Prim := ⟨.read, addr, buf, len⟩
  match e.fault m.calls.length p with
  | none => (true, { m with
      mem := m.mem.store buf len (fun i => m.flash (addr + i)), calls := p :: m.calls })
  | some left => (false, { m with mem := m.mem.store buf len left, calls := p :: m.calls })

/-- `flash_write`: programming clears bits and sets none. -/
def flashWrite (e : Env) (m : Machine) (addr buf len : Nat) : Bool × Machine :=
  let p : Prim := ⟨.write, addr, buf, len⟩
  match e.fault m.calls.length p with
  | none => (true, { m with
      flash := m.flash.program addr len (fun i => m.mem (buf + i)), calls := p :: m.calls })
  | some left => (false, { m with flash := m.flash.store addr len left, calls := p :: m.calls })

/-- `platform_s_flash_read`. A misaligned destination gets all but the last
word from the aligned addresses behind it, and the last word through `back`. -/
def platformSFlashRead (e : Env) (m : Machine) (dest fromaddr size : Nat) : Nat × Machine :=
  if size = 0 then (0, m)
  else
    let (r, m) :=
      if dest % blksize ≠ 0 then
        let size2 := size - blksize
        let to2 := alignDown dest + blksize
        let (r, m) := flashRead e m fromaddr to2 size2
        if r then
          let mem := m.mem.store dest size2 (fun i => m.mem (to2 + i))
          let (r, m) := flashRead e { m with mem := mem } (fromaddr + size2) e.back blksize
          (r, { m with mem := m.mem.store (dest + size2) blksize (fun i => m.mem (e.back + i)) })
        else (r, m)
      else flashRead e m fromaddr dest size
    (if r then size else 0, m)

/-- `platform_s_flash_write`. A misaligned or flash-mapped source is copied first. -/
def platformSFlashWrite (e : Env) (m : Machine) (src toaddr size : Nat) : Nat × Machine :=
  if src % blksize ≠ 0 ∨ e.cached src = true then
    match e.malloc m.calls.length size with
    | none => (0, m)
    | some apbuf =>
      let mem := m.mem.store apbuf size (fun i => m.mem (src + i))
      let (r, m) := flashWrite e { m with mem := mem } toaddr apbuf size
      (if r then size else 0, m)
  else
    let (r, m) := flashWrite e m toaddr src size
    (if r then size else 0, m)

/-- The byte loops, `for( i = ...; size && ( i < stop ); i ++, size -- )`: what
is left of `size`, and the memory. -/
def copyLoop (mem : ByteMem) (dst src i stop : Nat) : Nat → Nat × ByteMem
  | 0 => (0, mem)
  | size+1 =>
    if i < stop then copyLoop (mem.write8 dst (mem src)) (dst + 1) (src + 1) (i + 1) stop size
    else (size + 1, mem)

/-- Bytes `i` to `stop` of the word at `temp` become those at `pfrom`, by way
of `tmpdata`. The result is what is left of `size`. -/
def patchWord (e : Env) (m : Machine) (pfrom temp i stop size : Nat) : Nat × Machine :=
  let m := (platformSFlashRead e m e.tmpdata temp blksize).2
  let (size, mem) := copyLoop m.mem (e.tmpdata + i) pfrom i stop size
  (size, (platformSFlashWrite e { m with mem := mem } e.tmpdata temp blksize).2)

/-- `platform_flash_write` from an aligned `toaddr` on. -/
def writeBlocks (e : Env) (m : Machine) (pfrom toaddr size : Nat) : Machine :=
  let rest := size % blksize
  let temp := alignDown size
  let (m, toaddr, pfrom) :=
    if temp ≠ 0 then
      ((platformSFlashWrite e m pfrom toaddr temp).2, toaddr + temp, pfrom + temp)
    else (m, toaddr, pfrom)
  -- `size` still counts the blocks here, and the loop stops at `rest`
  if rest ≠ 0 then (patchWord e m pfrom toaddr 0 rest size).2 else m

/-- `platform_flash_write`. It looks at no result of the functions below. -/
def platformFlashWrite (e : Env) (m : Machine) (src toaddr size : Nat) : Nat × Machine :=
  if toaddr % blksize ≠ 0 then
    let rest := toaddr % blksize
    let temp := alignDown toaddr
    let (left, m) := patchWord e m src temp rest blksize size
    if left = 0 then (size, m)
    else (size, writeBlocks e m (src + (size - left)) (temp + blksize) left)
  else (size, writeBlocks e m src toaddr size)

def fetchWord (e : Env) (m : Machine) (pto temp i stop size : Nat) : Nat × Machine :=
  let m := (platformSFlashRead e m e.tmpdata temp blksize).2
  let (size, mem) := copyLoop m.mem pto (e.tmpdata + i) i stop size
  (size, { m with mem := mem })

def readBlocks (e : Env) (m : Machine) (pto fromaddr size : Nat) : Machine :=
  let rest := size % blksize
  let temp := alignDown size
  let (m, fromaddr, pto) :=
    if temp ≠ 0 then
      ((platformSFlashRead e m pto fromaddr temp).2, fromaddr + temp, pto + temp)
    else (m, fromaddr, pto)
  if rest ≠ 0 then (fetchWord e m pto fromaddr 0 rest size).2 else m

def platformFlashRead (e : Env) (m : Machine) (dest fromaddr size : Nat) : Nat × Machine :=
  if fromaddr % blksize ≠ 0 then
    let rest := fromaddr % blksize
    let temp := alignDown fromaddr
    let (left, m) := fetchWord e m dest temp rest blksize size
    if left = 0 then (size, m)
    else (size, readBlocks e m (dest + (size - left)) (temp + blksize) left)
  else (size, readBlocks e m dest fromaddr size)

end Esp32Project.Flash
