import Mathlib.Data.List.TakeWhile

/-!
The partition table as platform_partition.c and get_spiffs_partition in
spiffs.c use it: one flash sector, which is 128 entries of 32 bytes.
-/

set_option autoImplicit false

namespace Esp32Project.Partition

/-- `esp_partition_info_t`. -/
structure Slot where
  magic : BitVec 16
  type : UInt8
  subtype : UInt8
  offset : BitVec 32
  size : BitVec 32
  label : List UInt8
  flags : BitVec 32
  deriving DecidableEq, Repr

/-- `platform_partition_t`. -/
structure Info where
  label : List UInt8
  offs : BitVec 32
  size : BitVec 32
  type : UInt8
  subtype : UInt8
  deriving DecidableEq, Repr

def partitionMagic : BitVec 16 := 0x50AA

def secSize : Nat := 4096

def infoSize : Nat := 32

def Slot.used (s : Slot) : Bool := s.magic == partitionMagic

def Slot.info (s : Slot) : Info := ⟨s.label, s.offset, s.size, s.type, s.subtype⟩

structure Table where
  slots : List Slot
  full : slots.length = 128

def Table.set (t : Table) (i : Nat) (s : Slot) : Table :=
  ⟨t.slots.set i s, by rw [List.length_set, t.full]⟩

/-- What the flash and the heap answer in one call. A failed erase or write
leaves some other table. -/
structure Env where
  readFails : Nat → Bool
  malloc : Bool
  tableReadFails : Bool
  eraseLeaves : Option Table
  writeLeaves : Option Table
  flashSize : BitVec 32
  /-- The local `info` before anything is stored there. -/
  stack : Info

def possibleIdx (idx : Nat) : Bool := (idx + 1) * infoSize < secSize

def platformPartitionInfo (e : Env) (t : Table) (idx : Nat) : Option Info :=
  if !possibleIdx idx then none
  else if e.readFails idx then none
  else
    match t.slots[idx]? with
    | some pi => if pi.magic ≠ partitionMagic then none else some pi.info
    | none => none

def freeIdx (t : Table) : Nat → Nat → Nat
  | 0, idx => idx
  | n + 1, idx =>
    if possibleIdx idx then
      match t.slots[idx]? with
      | some pi => if pi.magic ≠ partitionMagic then idx else freeIdx t n (idx + 1)
      | none => idx
    else idx

def Info.slot (info : Info) : Slot :=
  ⟨partitionMagic, info.type, info.subtype, info.offs, info.size, info.label, 0xFFFFFFFF⟩

def platformPartitionAdd (e : Env) (t : Table) (info : Info) : Bool × Table :=
  if !e.malloc then (false, t)
  else if e.tableReadFails then (false, t)
  else
    let idx := freeIdx t 128 0
    if possibleIdx idx then
      match e.eraseLeaves with
      | some left => (false, left)
      | none =>
        match e.writeLeaves with
        | some left => (false, left)
        | none => (true, t.set idx info.slot)
    else (true, t)

def typeNodemcu : UInt8 := 0xC2

def subtypeNodemcuSpiffs : UInt8 := 0x00

def Info.isSpiffs (info : Info) : Bool :=
  info.type == typeNodemcu && info.subtype == subtypeNodemcuSpiffs

/-- What the loop of `get_spiffs_partition` ends with: the partition, or the
last entry read and the end of the table's partitions. -/
inductive Scan where
  | found (info : Info)
  | free (info : Info) (nextFreeOffs : BitVec 32)
  deriving DecidableEq, Repr

def scan (e : Env) (t : Table) : Nat → Nat → Info → BitVec 32 → Scan
  | 0, _, info, next => .free info next
  | n + 1, i, info, next =>
    match platformPartitionInfo e t i with
    | none => .free info next
    | some info =>
      if info.isSpiffs then .found info
      else scan e t n (i + 1) info (if info.offs + info.size > next then info.offs + info.size
        else next)

/-- `strcpy` into the label, which stays as it is behind the terminator. -/
def spiffsLabel (label : List UInt8) : List UInt8 :=
  [115, 112, 105, 102, 102, 115, 0] ++ label.drop 7

/-- The partition to add: from the end of the others to the end of the flash. -/
def newInfo (e : Env) (info : Info) (next : BitVec 32) : Info :=
  ⟨spiffsLabel info.label, next, e.flashSize - next, typeNodemcu, subtypeNodemcuSpiffs⟩

structure Config where
  physAddr : BitVec 32
  physSize : BitVec 32
  deriving DecidableEq, Repr

def getSpiffsPartition (e : Env) (t : Table) : Bool × Config × Table :=
  match scan e t 128 0 e.stack 0 with
  | .found info => (true, ⟨info.offs, info.size⟩, t)
  | .free info next =>
    let info := newInfo e info next
    let cfg : Config := ⟨info.offs, info.size⟩
    -- the size is unsigned, so this is the test for zero
    if info.size ≤ 0 then (false, cfg, t)
    else
      let (added, t) := platformPartitionAdd e t info
      (added, cfg, t)

end Esp32Project.Partition
