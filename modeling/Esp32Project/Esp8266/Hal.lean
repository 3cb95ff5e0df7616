import Esp32Project.Esp8266.Spiffs
import Esp32Project.Lib.ByteMem
import Mathlib.Algebra.Group.Nat.Defs

/-!
The flash access of the ESP8266 file system (esp_spiffs.c): every read and write
goes through a buffer of whole words on the stack. A result `none` is an access
behind the end of that buffer.
-/

set_option autoImplicit false

namespace Esp32Project.Esp8266
open Esp32Project.Lib

def flashUnitSize : Nat := 4
def spiffsOk : Int := 0
def spiffsErrNotConfigured : Int := -10024

def u32 (x : Nat) : Nat := x % 2 ^ 32

/-- A call of `spi_flash_read` or `spi_flash_write`. -/
structure Access where
  write : Bool
  addr : Nat
  len : Nat
  deriving DecidableEq, Repr

/-- What the two primitives return, and which bytes one that fails leaves. -/
structure Chip where
  res : Access → Int
  left : Access → Nat → UInt8

/-- Flash, memory, and the accesses made, the latest first. -/
structure HalState where
  flash : ByteMem
  mem : ByteMem
  accesses : List Access

/-- The local array `tmp_buf`. -/
structure TmpBuf where
  size : Nat
  bytes : ByteMem

def TmpBuf.put (tmpBuf : TmpBuf) (off len : Nat) (f : Nat → UInt8) : Option TmpBuf :=
  if off + len ≤ tmpBuf.size then some { tmpBuf with bytes := tmpBuf.bytes.store off len f }
  else none

def TmpBuf.get (tmpBuf : TmpBuf) (off len : Nat) : Option (Nat → UInt8) :=
  if off + len ≤ tmpBuf.size then some (fun i => tmpBuf.bytes (off + i)) else none

def spiFlashRead (chip : Chip) (s : HalState) (addr : Nat) (tmpBuf : TmpBuf) (len : Nat) :
    Option (Int × TmpBuf × HalState) := do
  let a : Access := ⟨false, addr, len⟩
  let got := if chip.res a = 0 then fun i => s.flash (addr + i) else chip.left a
  let tmpBuf ← tmpBuf.put 0 len got
  return (chip.res a, tmpBuf, { s with accesses := a :: s.accesses })

def spiFlashWrite (chip : Chip) (s : HalState) (addr : Nat) (tmpBuf : TmpBuf) (len : Nat) :
    Option (Int × HalState) := do
  let a : Access := ⟨true, addr, len⟩
  let bytes ← tmpBuf.get 0 len
  let flash :=
    if chip.res a = 0 then s.flash.program addr len bytes
    else s.flash.store addr len (chip.left a)
  return (chip.res a, { s with flash := flash, accesses := a :: s.accesses })

/-- `addr & (-FLASH_UNIT_SIZE)`. -/
def alignedAddr (addr : Nat) : Nat := addr / flashUnitSize * flashUnitSize

/-- `((size + (FLASH_UNIT_SIZE - 1)) & -FLASH_UNIT_SIZE) + FLASH_UNIT_SIZE`. -/
def alignedSize (size : Nat) : Nat :=
  u32 (u32 (size + (flashUnitSize - 1)) / flashUnitSize * flashUnitSize + flashUnitSize)

/-- `esp_spiffs_readwrite`, with what `tmp_buf` holds before it is filled. -/
def espSpiffsReadwrite (chip : Chip) (config : EspSpiffsConfig) (junk : ByteMem) (s : HalState)
    (addr size p : Nat) (write : Bool) : Option (Int × HalState) := do
  if config.logPageSize < size then return (spiffsErrNotConfigured, s)
  let tmpBuf : TmpBuf := ⟨u32 (config.logPageSize + flashUnitSize * 2), junk⟩
  let (res, tmpBuf, s) ← spiFlashRead chip s (alignedAddr addr) tmpBuf (alignedSize size)
  if res ≠ 0 then return (res, s)
  if !write then
    let bytes ← tmpBuf.get (addr - alignedAddr addr) size
    return (spiffsOk, { s with mem := s.mem.store p size bytes })
  let tmpBuf ← tmpBuf.put (addr - alignedAddr addr) size (fun i => s.mem (p + i))
  let (res, s) ← spiFlashWrite chip s (alignedAddr addr) tmpBuf (alignedSize size)
  if res ≠ 0 then return (res, s)
  return (spiffsOk, s)

def espSpiffsRead (chip : Chip) (config : EspSpiffsConfig) (junk : ByteMem) (s : HalState)
    (addr size dst : Nat) : Option (Int × HalState) :=
  espSpiffsReadwrite chip config junk s addr size dst false

def espSpiffsWrite (chip : Chip) (config : EspSpiffsConfig) (junk : ByteMem) (s : HalState)
    (addr size src : Nat) : Option (Int × HalState) :=
  espSpiffsReadwrite chip config junk s addr size src true

/-- The length of `dram0_0_seg`. -/
def dramSize : Nat := 0x18000

/-- What `esp_spiffs_init` makes sure of before it mounts: malloc found the work
buffer of `log_page_size * 2` bytes. -/
structure Mountable (config : EspSpiffsConfig) : Prop where
  page : config.logPageSize < 2 ^ 32
  work : u32 (config.logPageSize * 2) ≤ dramSize

theorem Mountable.page_lt {config : EspSpiffsConfig} (h : Mountable config) :
    config.logPageSize + flashUnitSize * 2 < 2 ^ 32 := by
  have hp := h.page
  have hw := h.work
  simp only [u32, dramSize, flashUnitSize] at *
  omega

section

variable (chip : Chip) {config : EspSpiffsConfig} {size : Nat} (junk : ByteMem) (s : HalState)
  (addr p : Nat)

theorem tmpBuf_size (hc : Mountable config) :
    u32 (config.logPageSize + flashUnitSize * 2) = config.logPageSize + flashUnitSize * 2 :=
  Nat.mod_eq_of_lt hc.page_lt

theorem alignedSize_eq (hc : Mountable config) (hs : size ≤ config.logPageSize) :
    alignedSize size = (size + 3) / 4 * 4 + 4 := by
  have := hc.page_lt
  simp only [alignedSize, u32, flashUnitSize] at *
  omega

theorem aligned_covers (hc : Mountable config) (hs : size ≤ config.logPageSize) :
    alignedAddr addr ≤ addr ∧ addr - alignedAddr addr + size ≤ alignedSize size ∧
      alignedSize size ≤ config.logPageSize + flashUnitSize * 2 := by
  rw [alignedSize_eq hc hs]
  simp only [alignedAddr, flashUnitSize]
  omega

theorem aligned_words (hc : Mountable config) (hs : size ≤ config.logPageSize) :
    alignedAddr addr % flashUnitSize = 0 ∧ alignedSize size % flashUnitSize = 0 := by
  rw [alignedSize_eq hc hs]
  simp only [alignedAddr, flashUnitSize]
  omega

/-- The words around a range are read, and then the range is changed and all of
them programmed: the bytes around it are programmed with what they are. -/
theorem program_covering (flash junk : ByteMem) {a b len n : Nat} {src : Nat → UInt8}
    (hab : a ≤ b) (hn : b - a + n ≤ len) :
    flash.program a len (fun i => ((junk.store 0 len (fun i => flash (a + i))).store (b - a) n src)
      (0 + i)) = flash.program b n src := by
  obtain ⟨k, rfl⟩ : ∃ k, b = a + k := ⟨b - a, by omega⟩
  rw [Nat.add_sub_cancel_left] at *
  refine flash.program_patch hn (fun j hj => ?_) (fun j hj hout => ?_)
  · rw [Nat.zero_add, ByteMem.store_inside _ (by omega) (by omega), Nat.add_sub_cancel_left]
  · rw [Nat.zero_add, ByteMem.store_outside _ (by omega),
      ByteMem.store_inside _ (by omega) (by omega), Nat.sub_zero]

theorem put_eq {tmpBuf : TmpBuf} {off len : Nat} {f : Nat → UInt8} (h : off + len ≤ tmpBuf.size) :
    tmpBuf.put off len f = some { tmpBuf with bytes := tmpBuf.bytes.store off len f } := if_pos h

theorem get_eq {tmpBuf : TmpBuf} {off len : Nat} (h : off + len ≤ tmpBuf.size) :
    tmpBuf.get off len = some (fun i => tmpBuf.bytes (off + i)) := if_pos h

def readAccess (addr size : Nat) : Access := ⟨false, alignedAddr addr, alignedSize size⟩

def writeAccess (addr size : Nat) : Access := ⟨true, alignedAddr addr, alignedSize size⟩

theorem espSpiffsReadwrite_eq (write : Bool) (hc : Mountable config)
    (hs : size ≤ config.logPageSize) :
    espSpiffsReadwrite chip config junk s addr size p write =
      some (
        if chip.res (readAccess addr size) ≠ 0 then
          (chip.res (readAccess addr size),
            { s with accesses := readAccess addr size :: s.accesses })
        else if write = false then
          (spiffsOk,
            { s with
              mem := s.mem.store p size (fun i => s.flash (addr + i))
              accesses := readAccess addr size :: s.accesses })
        else
          (chip.res (writeAccess addr size),
            { s with
              flash :=
                if chip.res (writeAccess addr size) = 0 then
                  s.flash.program addr size (fun i => s.mem (p + i))
                else s.flash.store (alignedAddr addr) (alignedSize size)
                  (chip.left (writeAccess addr size))
              accesses := writeAccess addr size :: readAccess addr size :: s.accesses })) := by
  obtain ⟨hle, hin, hfit⟩ := aligned_covers addr hc hs
  rw [espSpiffsReadwrite, if_neg (Nat.not_lt.mpr hs), tmpBuf_size hc]
  dsimp only
  rw [spiFlashRead, put_eq (by simpa using hfit)]
  simp only [Option.bind_eq_bind, Option.bind_some, pure]
  rw [← readAccess]
  by_cases hr : chip.res (readAccess addr size) = 0
  · simp only [hr, ne_eq, not_true_eq_false, if_false, if_true]
    cases write with
    | false =>
      have hmem : ∀ i < size, junk.store 0 (alignedSize size)
          (fun i => s.flash (alignedAddr addr + i)) (addr - alignedAddr addr + i) =
            s.flash (addr + i) := by
        intro i hi
        rw [ByteMem.store_inside _ (by omega) (by omega)]
        congr 1
        omega
      have hbytes := s.mem.store_congr p hmem
      simp only [Bool.not_false, if_true]
      rw [get_eq (by dsimp only; omega), Option.bind_some, hbytes]
    | true =>
      simp only [Bool.not_true, Bool.false_eq_true, if_false]
      rw [put_eq (by dsimp only; omega), Option.bind_some, spiFlashWrite,
        get_eq (by dsimp only; omega)]
      simp only [Option.bind_eq_bind, Option.bind_some, pure]
      rw [← writeAccess, program_covering s.flash junk hle hin]
      by_cases hw : chip.res (writeAccess addr size) = 0
      · simp [hw, spiffsOk]
      · simp [hw]
  · simp [hr]

end

/-- All accesses of a call are of whole words, and one that fails makes the call fail. -/
def Seen (chip : Chip) (made : List Access) (res : Int) : Prop :=
  ∀ a ∈ made, a.addr % flashUnitSize = 0 ∧ a.len % flashUnitSize = 0 ∧
    (chip.res a ≠ 0 → res ≠ spiffsOk)

section

variable (chip : Chip) {config : EspSpiffsConfig} {size : Nat} (junk : ByteMem) (s : HalState)
  (addr : Nat)

theorem espSpiffsRead_exact (dst : Nat) (hc : Mountable config) (hs : size ≤ config.logPageSize) :
    ∃ res s' made, espSpiffsRead chip config junk s addr size dst = some (res, s') ∧
      s'.accesses = made ++ s.accesses ∧ Seen chip made res ∧
      (res = spiffsOk → s'.flash = s.flash ∧
        (∀ i < size, s'.mem (dst + i) = s.flash (addr + i)) ∧
        ∀ a, a < dst ∨ dst + size ≤ a → s'.mem a = s.mem a) := by
  have hwords := aligned_words addr hc hs
  have hread := espSpiffsReadwrite_eq chip junk s addr dst false hc hs
  by_cases hr : chip.res (readAccess addr size) = 0
  · simp only [hr, ne_eq, not_true_eq_false, if_false, if_true] at hread
    refine ⟨_, _, [readAccess addr size], hread, rfl, ?_, fun _ => ⟨rfl, fun i hi => ?_, ?_⟩⟩
    · intro a ha
      obtain rfl := List.mem_singleton.mp ha
      exact ⟨hwords.1, hwords.2, fun h => absurd hr h⟩
    · dsimp only
      rw [ByteMem.store_inside _ (by omega) (by omega), Nat.add_sub_cancel_left]
    · intro a ha
      dsimp only
      rw [ByteMem.store_outside _ ha]
  · rw [if_pos hr] at hread
    refine ⟨_, _, [readAccess addr size], hread, rfl, ?_, fun h => absurd h hr⟩
    intro a ha
    obtain rfl := List.mem_singleton.mp ha
    exact ⟨hwords.1, hwords.2, fun h => h⟩

theorem espSpiffsWrite_exact (src : Nat) (hc : Mountable config) (hs : size ≤ config.logPageSize) :
    ∃ res s' made, espSpiffsWrite chip config junk s addr size src = some (res, s') ∧
      s'.accesses = made ++ s.accesses ∧ Seen chip made res ∧
      (res = spiffsOk → s'.mem = s.mem ∧
        (∀ i < size, s'.flash (addr + i) = s.flash (addr + i) &&& s.mem (src + i)) ∧
        ∀ a, a < addr ∨ addr + size ≤ a → s'.flash a = s.flash a) := by
  have hwords := aligned_words addr hc hs
  have hwrite := espSpiffsReadwrite_eq chip junk s addr src true hc hs
  by_cases hr : chip.res (readAccess addr size) = 0
  · rw [if_neg (not_not.mpr hr), if_neg Bool.noConfusion] at hwrite
    refine ⟨_, _, [writeAccess addr size, readAccess addr size], hwrite, rfl, ?_, fun hw => ?_⟩
    · intro a ha
      rcases List.mem_cons.mp ha with rfl | ha
      · exact ⟨hwords.1, hwords.2, fun h => h⟩
      · obtain rfl := List.mem_singleton.mp ha
        exact ⟨hwords.1, hwords.2, fun h => absurd hr h⟩
    · replace hw : chip.res (writeAccess addr size) = 0 := hw
      refine ⟨rfl, fun i hi => ?_, fun a ha => ?_⟩
      · dsimp only
        rw [if_pos hw, ByteMem.program_apply, if_pos (by omega), Nat.add_sub_cancel_left]
      · dsimp only
        rw [if_pos hw, ByteMem.program_apply, if_neg (by omega)]
  · rw [if_pos hr] at hwrite
    refine ⟨_, _, [readAccess addr size], hwrite, rfl, ?_, fun h => absurd h hr⟩
    intro a ha
    obtain rfl := List.mem_singleton.mp ha
    exact ⟨hwords.1, hwords.2, fun h => h⟩

/-- The flash access of the file system is exact: what a read that succeeds
delivers, and what a write that succeeds leaves. -/
theorem hal_exact (p : Nat) (hc : Mountable config) (hs : size ≤ config.logPageSize) :
    (∃ res s' made, espSpiffsRead chip config junk s addr size p = some (res, s') ∧
      s'.accesses = made ++ s.accesses ∧ Seen chip made res ∧
      (res = spiffsOk → s'.flash = s.flash ∧
        (∀ i < size, s'.mem (p + i) = s.flash (addr + i)) ∧
        ∀ a, a < p ∨ p + size ≤ a → s'.mem a = s.mem a)) ∧
    ∃ res s' made, espSpiffsWrite chip config junk s addr size p = some (res, s') ∧
      s'.accesses = made ++ s.accesses ∧ Seen chip made res ∧
      (res = spiffsOk → s'.mem = s.mem ∧
        (∀ i < size, s'.flash (addr + i) = s.flash (addr + i) &&& s.mem (p + i)) ∧
        ∀ a, a < addr ∨ addr + size ≤ a → s'.flash a = s.flash a) :=
  ⟨espSpiffsRead_exact chip junk s addr p hc hs, espSpiffsWrite_exact chip junk s addr p hc hs⟩

end

/-- The configuration of `myspiffs_init`. -/
def myspiffsConfig : EspSpiffsConfig := ⟨0x20000, 0x100000, 4096, 4096, 128, 256, 1280⟩

theorem myspiffsConfig_mountable : Mountable myspiffsConfig := ⟨by decide, by decide⟩

/-- Erased flash, a primitive that never fails, and a page that starts one byte
behind a word. -/
theorem hal_exact_page :
    ∃ s' made, espSpiffsWrite ⟨fun _ => 0, fun _ _ => 0⟩ myspiffsConfig (fun _ => 0)
        ⟨fun _ => 255, fun _ => 7, []⟩ 0x100001 128 0 = some (spiffsOk, s') ∧
      s'.accesses = made ++ [] ∧ Seen ⟨fun _ => 0, fun _ _ => 0⟩ made spiffsOk ∧
      s'.mem = (fun _ => 7) ∧ (∀ i < 128, s'.flash (0x100001 + i) = 7) ∧
      ∀ a, a < 0x100001 ∨ 0x100001 + 128 ≤ a → s'.flash a = 255 := by
  obtain ⟨res, s', made, hwrite, hmade, hseen, hok⟩ :=
    (hal_exact ⟨fun _ => 0, fun _ _ => 0⟩ (fun _ => 0) ⟨fun _ => 255, fun _ => 7, []⟩ 0x100001 0
      myspiffsConfig_mountable (show 128 ≤ myspiffsConfig.logPageSize by decide)).2
  have hres : (espSpiffsWrite ⟨fun _ => 0, fun _ _ => 0⟩ myspiffsConfig (fun _ => 0)
      ⟨fun _ => 255, fun _ => 7, []⟩ 0x100001 128 0).map Prod.fst = some spiffsOk := by decide
  rw [hwrite] at hres
  obtain rfl : res = spiffsOk := Option.some.inj hres
  have hand : (255 : UInt8) &&& 7 = 7 := by decide
  obtain ⟨hmem, hflash, hrest⟩ := hok rfl
  exact ⟨s', made, hwrite, hmade, hseen, hmem, fun i hi => (hflash i hi).trans hand, hrest⟩

def Access.inside (config : EspSpiffsConfig) (a : Access) : Prop :=
  config.physAddr ≤ a.addr ∧ a.addr + a.len ≤ config.physAddr + config.physSize

/-- The accesses that a call has added are inside the file system. -/
def Confined (config : EspSpiffsConfig) (s s' : HalState) : Prop :=
  ∃ made, s'.accesses = made ++ s.accesses ∧ ∀ a ∈ made, a.inside config

theorem confined_iff {config : EspSpiffsConfig} {s s' : HalState} (made : List Access)
    (h : s'.accesses = made ++ s.accesses) :
    Confined config s s' ↔ ∀ a ∈ made, a.inside config := by
  constructor
  · rintro ⟨made', h', hin⟩
    obtain rfl : made' = made := List.append_cancel_right (h'.symm.trans h)
    exact hin
  · exact fun hin => ⟨made, h, hin⟩

theorem aligned_inside_iff {config : EspSpiffsConfig} {addr size : Nat} (hc : Mountable config)
    (hs : size ≤ config.logPageSize) (haddr : config.physAddr % flashUnitSize = 0)
    (hsize : config.physSize % flashUnitSize = 0) (hlo : config.physAddr ≤ addr) (write : Bool) :
    Access.inside config ⟨write, alignedAddr addr, alignedSize size⟩ ↔
      addr + size + flashUnitSize ≤
        config.physAddr + config.physSize + addr % flashUnitSize := by
  simp only [Access.inside, alignedSize_eq hc hs]
  simp only [alignedAddr, flashUnitSize] at *
  omega

/-- A call keeps to the file system just when the word behind the range, counted
from the word in which the range starts, is in it. -/
theorem hal_confined_iff (chip : Chip) {config : EspSpiffsConfig} (junk : ByteMem) (s : HalState)
    {addr size : Nat} (p : Nat) (write : Bool) (hc : Mountable config)
    (haddr : config.physAddr % flashUnitSize = 0) (hsize : config.physSize % flashUnitSize = 0)
    (hs : size ≤ config.logPageSize) (hlo : config.physAddr ≤ addr) :
    ∃ res s', espSpiffsReadwrite chip config junk s addr size p write = some (res, s') ∧
      (Confined config s s' ↔ addr + size + flashUnitSize ≤
        config.physAddr + config.physSize + addr % flashUnitSize) := by
  have hiff := aligned_inside_iff hc hs haddr hsize hlo
  have hread : (readAccess addr size).inside config ↔ _ := hiff false
  have hwrite : (writeAccess addr size).inside config ↔ _ := hiff true
  have hcall := espSpiffsReadwrite_eq chip junk s addr p write hc hs
  by_cases hr : chip.res (readAccess addr size) = 0
  · rw [if_neg (not_not.mpr hr)] at hcall
    cases write with
    | false =>
      exact ⟨_, _, hcall, (confined_iff [readAccess addr size] rfl).trans (by simp [hread])⟩
    | true =>
      exact ⟨_, _, hcall, (confined_iff [writeAccess addr size, readAccess addr size] rfl).trans
        (by simp [hread, hwrite])⟩
  · rw [if_pos hr] at hcall
    exact ⟨_, _, hcall, (confined_iff [readAccess addr size] rfl).trans (by simp [hread])⟩

/-- The first page of the file system. -/
theorem hal_confined_first :
    ∃ res s', espSpiffsReadwrite ⟨fun _ => 0, fun _ _ => 0⟩ myspiffsConfig (fun _ => 0)
        ⟨fun _ => 255, fun _ => 7, []⟩ 0x100000 128 0 true = some (res, s') ∧
      (Confined myspiffsConfig ⟨fun _ => 255, fun _ => 7, []⟩ s' ↔
        0x100000 + 128 + flashUnitSize ≤ 0x100000 + 0x20000 + 0x100000 % flashUnitSize) :=
  hal_confined_iff _ _ _ 0 true myspiffsConfig_mountable rfl rfl (by decide) (by decide)

/-- The last page of the file system is read and programmed with the first word
behind it. -/
theorem last_page_leaves :
    ∃ res s', espSpiffsReadwrite ⟨fun _ => 0, fun _ _ => 0⟩ myspiffsConfig (fun _ => 0)
        ⟨fun _ => 255, fun _ => 7, []⟩ 0x11FF80 128 0 true = some (res, s') ∧
      ¬ Confined myspiffsConfig ⟨fun _ => 255, fun _ => 7, []⟩ s' := by
  refine ⟨_, _, espSpiffsReadwrite_eq _ _ _ _ _ _ myspiffsConfig_mountable (by decide), ?_⟩
  rintro ⟨made, hmade, hin⟩
  have hw : writeAccess 0x11FF80 128 ∈ made := by
    rw [List.append_nil] at hmade
    exact hmade ▸ List.mem_cons_self
  exact absurd (hin _ hw).2 (by decide)

end Esp32Project.Esp8266
