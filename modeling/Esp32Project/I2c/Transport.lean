import Mathlib.Data.List.Basic
import Esp32Project.Lib.Buffer
import Esp32Project.Lib.CString
import Esp32Project.Lib.Except

/-! The bytes that `i2c.write` hands to the bus and those that `i2c.read` gives back. -/

set_option autoImplicit false

namespace Esp32Project.I2c

open Esp32Project.Lib

abbrev Bytes := List UInt8

/-- How a call ends without a result: a Lua error, or an access that is undefined. -/
inductive Stop where
  | raised (message : String)
  | fault
  deriving DecidableEq

/-- An argument after the third. A number is what `luaL_checkinteger` makes of it; a table
holds what it makes of each element, if it makes anything of it. -/
inductive Arg where
  | number (n : Int32)
  | table (elems : List (Option Int32))
  | string (s : Bytes)
  | other

structure Staging where
  buf : Bytes
  wrote : Nat

def Staging.push (s : Staging) (b : UInt8) : Except Stop Staging :=
  match store s.buf s.wrote b with
  | some buf => .ok ⟨buf, s.wrote + 1⟩
  | none => .error .fault

def Staging.pushNumber (s : Staging) (n : Int32) : Except Stop Staging :=
  if n.toInt < 0 ∨ n.toInt > 255 then .error (.raised "wrong arg range")
  else s.push (UInt8.ofNat n.toInt.toNat)

def Staging.pushElem (s : Staging) : Option Int32 → Except Stop Staging
  | some n => s.pushNumber n
  | none => .error (.raised "number expected")

def Staging.pushArg (s : Staging) : Arg → Except Stop Staging
  | .number n => s.pushNumber n
  | .table elems => elems.foldlM Staging.pushElem s
  | .string data => data.foldlM Staging.push s
  | .other => .error (.raised "string expected")

def bufSize : Nat := 256

/-- A call of `platform_i2c_send_byte`; `data` is all that the pointer leads to. -/
structure SendByte where
  mode : UInt32
  port : UInt32
  addr : UInt32
  data : Bytes
  len : Nat
  deriving DecidableEq

inductive BusOp where
  | slaveWrite (port : UInt32) (data : Bytes)
  | start
  | writeByte (b : UInt32)
  | write (data : Bytes)
  | stop
  | cmdBegin (port : UInt32)
  deriving DecidableEq

def masterWrite : UInt32 := 0

def platformI2cSendByte (c : SendByte) : List BusOp :=
  let data := c.data.take c.len
  if c.mode = 0 then [.slaveWrite c.port data]
  else [.start, .writeByte (c.addr <<< 1 ||| masterWrite), .write data, .stop, .cmdBegin c.port]

/-- The call that is made; `wrote` is what the script gets whatever comes of it. -/
def i2cWrite (mode port addr : UInt32) (args : List Arg) : Except Stop SendByte :=
  if args = [] then .error (.raised "wrong arg type")
  else do
    let s ← args.foldlM Staging.pushArg ⟨List.replicate bufSize 0, 0⟩
    return ⟨mode, port, addr, s.buf, s.wrote⟩

/-- What reaches the bus while a call of `platform_i2c_recv_byte` waits. -/
structure Bus where
  slave : UInt8 → Bytes
  master : UInt8 → UInt8 → Bytes

def modeSlave : UInt8 := 0

/-- The driver stores up to `n` of the bytes that arrive at `ptr` and keeps the others. -/
def receive (data : Bytes) (ptr n : Nat) (arrived : Bytes) : Option (Bytes × Bytes) :=
  (storeAll data ptr (arrived.take n)).map fun data => (data, arrived.drop n)

/-- `none` when a byte is stored outside `data`. -/
def platformI2cRecvByte (bus : Bus) (mode port addr : UInt8) (data : Bytes) (len : Nat) :
    Option Bytes :=
  if mode = modeSlave then (receive data 0 len (bus.slave port)).map Prod.fst
  else do
    let arrived := bus.master port addr
    let (data, arrived) ← if len > 1 then receive data 0 (len - 1) arrived else some (data, arrived)
    let (data, _) ← receive data (len - 1) 1 arrived
    return data

def dataSize : Nat := 1024

def i2cRead (bus : Bus) (mode port addr len : UInt32) : Except Stop Bytes :=
  if port ≠ 0 ∧ port ≠ 1 then .error (.raised "valid port is 0 or 1")
  else if len = 0 then .error .fault -- luaL_pushresult reads the buffer at NULL
  else
    let dataRw := List.replicate dataSize 0
    match platformI2cRecvByte bus mode.toUInt8 port.toUInt8 addr.toUInt8 dataRw len.toNat with
    | none => .error .fault
    | some dataRw =>
      match strlen dataRw with
      | none => .error .fault
      | some n => .ok (dataRw.take n)

def Arg.items : Arg → List (Except String UInt8)
  | .number n => [numberItem n]
  | .table elems => elems.map elemItem
  | .string data => data.map .ok
  | .other => [.error "string expected"]
where
  numberItem (n : Int32) : Except String UInt8 :=
    if n.toInt < 0 ∨ n.toInt > 255 then .error "wrong arg range"
    else .ok (UInt8.ofNat n.toInt.toNat)
  elemItem : Option Int32 → Except String UInt8
    | some n => numberItem n
    | none => .error "number expected"

def Staging.pushItem (s : Staging) : Except String UInt8 → Except Stop Staging
  | .ok b => s.push b
  | .error m => .error (.raised m)

theorem pushNumber_eq (s : Staging) (n : Int32) :
    s.pushNumber n = s.pushItem (Arg.items.numberItem n) := by
  unfold Staging.pushNumber Arg.items.numberItem
  split <;> rfl

theorem pushElem_eq (s : Staging) (e : Option Int32) :
    s.pushElem e = s.pushItem (Arg.items.elemItem e) := by
  cases e with
  | none => rfl
  | some n => exact pushNumber_eq s n

theorem pushArg_eq (s : Staging) (a : Arg) : s.pushArg a = a.items.foldlM Staging.pushItem s := by
  cases a with
  | number n =>
    rw [Staging.pushArg, pushNumber_eq, Arg.items]
    simp
  | table elems =>
    rw [Staging.pushArg, Arg.items, List.foldlM_map]
    congr 1
    funext s e
    exact pushElem_eq s e
  | string data =>
    rw [Staging.pushArg, Arg.items, List.foldlM_map]
    rfl
  | other => rfl

theorem pushArgs_eq (s : Staging) (args : List Arg) :
    args.foldlM Staging.pushArg s = (args.flatMap Arg.items).foldlM Staging.pushItem s := by
  induction args generalizing s with
  | nil => rfl
  | cons a args ih =>
    rw [List.foldlM_cons, List.flatMap_cons, List.foldlM_append, pushArg_eq]
    congr 1
    funext s
    exact ih s

/-- The bytes before the first item that raises an error. -/
def leading : List (Except String UInt8) → Bytes
  | .ok b :: items => b :: leading items
  | _ => []

def firstError : List (Except String UInt8) → Option String
  | [] => none
  | .ok _ :: items => firstError items
  | .error m :: _ => some m

theorem leading_of_no_error {items : List (Except String UInt8)} (h : firstError items = none) :
    items = (leading items).map .ok := by
  induction items with
  | nil => rfl
  | cons item items ih =>
    cases item with
    | error m => cases h
    | ok b => rw [leading, List.map_cons, ← ih h]

/-- The items are stored up to the first that raises an error or lies outside the buffer. -/
theorem pushItems_eq (items : List (Except String UInt8)) (s : Staging) :
    items.foldlM Staging.pushItem s =
      match storeAll s.buf s.wrote (leading items) with
      | none => .error .fault
      | some buf =>
        match firstError items with
        | none => .ok ⟨buf, s.wrote + (leading items).length⟩
        | some m => .error (.raised m) := by
  induction items generalizing s with
  | nil => rfl
  | cons item items ih =>
    cases item with
    | error m => rfl
    | ok b =>
      rw [List.foldlM_cons, leading, storeAll, firstError, Staging.pushItem, Staging.push]
      cases store s.buf s.wrote b with
      | none => rfl
      | some buf =>
        simp only [bind, Except.bind, Option.bind_some, ih, List.length_cons]
        rw [Nat.add_right_comm, Nat.add_assoc]

/-- The call hands over the bytes of all the arguments in order, and as their number. -/
def WriteRight (args : List Arg) : Except Stop SendByte → Prop
  | .ok c => ∃ bytes : Bytes, args.flatMap Arg.items = bytes.map .ok ∧
      c.data.take c.len = bytes ∧ c.len = bytes.length
  | .error (.raised _) => True
  | .error .fault => False

theorem i2cWrite_fits (mode port addr : UInt32) {args : List Arg}
    (h : (leading (args.flatMap Arg.items)).length ≤ bufSize) :
    WriteRight args (i2cWrite mode port addr args) := by
  unfold i2cWrite
  split
  · trivial
  rw [pushArgs_eq, pushItems_eq]
  set items := args.flatMap Arg.items with hitems
  have hstore : storeAll (List.replicate bufSize 0) 0 (leading items) =
      some (leading items ++ (List.replicate bufSize 0).drop (leading items).length) := by
    rw [storeAll_eq (by simpa using h)]
    simp
  simp only [hstore]
  cases herror : firstError items with
  | some m => trivial
  | none => exact ⟨leading items, leading_of_no_error herror, by simp, Nat.zero_add _⟩

theorem i2cWrite_overflows (mode port addr : UInt32) {args : List Arg}
    (h : bufSize < (leading (args.flatMap Arg.items)).length) :
    i2cWrite mode port addr args = .error .fault := by
  have hargs : args ≠ [] := by
    rintro rfl
    simp [leading] at h
  rw [i2cWrite, if_neg hargs, pushArgs_eq, pushItems_eq,
    storeAll_eq_none (by intro hnil; simp [hnil] at h) (by simpa using h)]
  rfl

theorem writeRight_iff (mode port addr : UInt32) (args : List Arg) :
    WriteRight args (i2cWrite mode port addr args) ↔
      (leading (args.flatMap Arg.items)).length ≤ bufSize := by
  rcases Nat.lt_or_ge bufSize (leading (args.flatMap Arg.items)).length with hover | hfits
  · rw [i2cWrite_overflows mode port addr hover]
    exact iff_of_false id (Nat.not_le.mpr hover)
  · exact iff_of_true (i2cWrite_fits mode port addr hfits) hfits

/-- A write that neither raises an error nor leaves its buffer puts the bytes on the bus. -/
theorem platformI2cSendByte_bytes {mode port addr : UInt32} {args : List Arg} {c : SendByte}
    (h : i2cWrite mode port addr args = .ok c) :
    ∃ bytes : Bytes, args.flatMap Arg.items = bytes.map .ok ∧
      (.slaveWrite c.port bytes ∈ platformI2cSendByte c ∨
        .write bytes ∈ platformI2cSendByte c) := by
  rcases Nat.lt_or_ge bufSize (leading (args.flatMap Arg.items)).length with hover | hfits
  · rw [i2cWrite_overflows mode port addr hover] at h
    cases h
  · obtain ⟨bytes, hitems, hdata, -⟩ := h ▸ i2cWrite_fits mode port addr hfits
    refine ⟨bytes, hitems, ?_⟩
    unfold platformI2cSendByte
    split
    · exact .inl (by simp [hdata])
    · exact .inr (by simp [hdata])

def Bus.arrived (bus : Bus) (mode port addr : UInt8) : Bytes :=
  if mode = modeSlave then bus.slave port else bus.master port addr

theorem receive_then_last (data arrived : Bytes) (n : Nat) :
    ((receive data 0 n arrived).bind fun (data, arrived) => receive data n 1 arrived) =
      receive data 0 (n + 1) arrived := by
  have hplace : ∀ data : Bytes, storeAll data (0 + (arrived.take n).length)
      ((arrived.drop n).take 1) = storeAll data n ((arrived.drop n).take 1) := fun data => by
    rcases Nat.lt_or_ge arrived.length n with hlt | hge
    · simp [List.drop_eq_nil_of_le hlt.le, storeAll]
    · rw [List.length_take, Nat.min_eq_left hge, Nat.zero_add]
  simp only [receive, List.take_add, storeAll_append, hplace, Option.bind_map, Function.comp_def,
    Option.map_bind, List.drop_drop]

theorem platformI2cRecvByte_eq (bus : Bus) (mode port addr : UInt8) (data : Bytes) {len : Nat}
    (hlen : 0 < len) :
    platformI2cRecvByte bus mode port addr data len =
      storeAll data 0 ((bus.arrived mode port addr).take len) := by
  unfold platformI2cRecvByte Bus.arrived
  split
  · simp [receive, Function.comp_def]
  · obtain ⟨n, rfl⟩ := Nat.exists_eq_add_of_lt hlen
    have hlast := receive_then_last data (bus.master port addr) n
    simp only [Nat.zero_add, Nat.add_sub_cancel]
    have hread : storeAll data 0 ((bus.master port addr).take (n + 1)) =
        ((receive data 0 n (bus.master port addr)).bind fun (data, arrived) =>
          receive data n 1 arrived).map Prod.fst := by
      rw [hlast]
      simp [receive, Function.comp_def]
    rw [hread, Option.map_bind]
    by_cases hn : n = 0
    · subst hn
      simp [receive, storeAll, Option.map_eq_bind, Function.comp_def]
    · rw [if_pos (by omega)]
      simp [Option.map_eq_bind, Function.comp_def]

def arrayOf (stored : Bytes) : Bytes := stored ++ List.replicate (dataSize - stored.length) 0

theorem storeAll_array {stored : Bytes} (h : stored.length ≤ dataSize) :
    storeAll (List.replicate dataSize 0) 0 stored = some (arrayOf stored) := by
  rw [storeAll_eq (by simpa using h), arrayOf]
  simp

theorem strlen_full {stored : Bytes} (hzero : 0 ∉ stored) (h : stored.length = dataSize) :
    strlen (arrayOf stored) = none := by
  rw [strlen, arrayOf, h, Nat.sub_self, if_neg (by simpa using hzero)]

theorem strlen_short {stored : Bytes} (hzero : 0 ∉ stored) (h : stored.length < dataSize) :
    strlen (arrayOf stored) = some stored.length := by
  obtain ⟨k, hk⟩ := Nat.exists_eq_add_of_lt h
  rw [arrayOf, hk, show stored.length + k + 1 - stored.length = k + 1 by omega,
    List.replicate_succ, strlen_append_zero hzero]

/-- The result is the `len` bytes that were stored. -/
def ReadRight (len : Nat) (arrived : Bytes) : Except Stop Bytes → Prop
  | .ok r => r = arrived.take len ∧ r.length = len
  | .error (.raised _) => True
  | .error .fault => False

theorem readRight_iff (bus : Bus) (mode port addr len : UInt32) :
    ReadRight len.toNat (bus.arrived mode.toUInt8 port.toUInt8 addr.toUInt8)
        (i2cRead bus mode port addr len) ↔
      (port ≠ 0 ∧ port ≠ 1) ∨
        0 < len.toNat ∧ len.toNat < dataSize ∧
          len.toNat ≤ (bus.arrived mode.toUInt8 port.toUInt8 addr.toUInt8).length ∧
          0 ∉ (bus.arrived mode.toUInt8 port.toUInt8 addr.toUInt8).take len.toNat := by
  unfold i2cRead
  split
  · rename_i hport
    exact iff_of_true trivial (.inl hport)
  rename_i hport
  rw [or_iff_right hport]
  split
  · rename_i hlen
    simp [hlen, ReadRight]
  rename_i hlen
  have hpos : 0 < len.toNat := by
    rw [Nat.pos_iff_ne_zero]
    exact fun h => hlen (UInt32.toNat_inj.mp h)
  simp only [platformI2cRecvByte_eq bus _ _ _ _ hpos]
  set arrived := bus.arrived mode.toUInt8 port.toUInt8 addr.toUInt8
  set stored := arrived.take len.toNat
  have hlength : stored.length = min len.toNat arrived.length := List.length_take
  rcases Nat.lt_or_ge dataSize stored.length with hover | hfits
  · -- a byte is stored behind the array
    have hnone : storeAll (List.replicate dataSize 0) 0 stored = none :=
      storeAll_eq_none (by rintro h; simp [h] at hover) (by simpa using hover)
    rw [hnone]
    exact iff_of_false id fun h => by omega
  rw [storeAll_array hfits]
  simp only
  by_cases hzero : 0 ∈ stored
  · -- the string ends at the first zero
    refine iff_of_false ?_ fun h => h.2.2.2 hzero
    cases hn : strlen (arrayOf stored) with
    | none => exact id
    | some n =>
      rintro ⟨heq, -⟩
      rw [take_strlen hn] at heq
      have hmem : 0 ∈ cString (arrayOf stored) := by rw [heq]; exact hzero
      exact not_mem_cString _ hmem
  rcases Nat.lt_or_eq_of_le hfits with hshort | hfull
  · rw [strlen_short hzero hshort]
    simp only [ReadRight, arrayOf, List.take_left]
    exact ⟨fun h => ⟨hpos, by omega, by omega, hzero⟩, fun h => ⟨rfl, by omega⟩⟩
  · -- no byte of the array is zero
    rw [strlen_full hzero hfull]
    exact iff_of_false id fun h => by omega

/-- Both directions of the transport, each right exactly when its buffer takes what it is for. -/
theorem transport_right_iff (mode port addr len : UInt32) (args : List Arg) (bus : Bus) :
    (WriteRight args (i2cWrite mode port addr args) ↔
      (leading (args.flatMap Arg.items)).length ≤ bufSize) ∧
    (ReadRight len.toNat (bus.arrived mode.toUInt8 port.toUInt8 addr.toUInt8)
        (i2cRead bus mode port addr len) ↔
      (port ≠ 0 ∧ port ≠ 1) ∨
        0 < len.toNat ∧ len.toNat < dataSize ∧
          len.toNat ≤ (bus.arrived mode.toUInt8 port.toUInt8 addr.toUInt8).length ∧
          0 ∉ (bus.arrived mode.toUInt8 port.toUInt8 addr.toUInt8).take len.toNat) :=
  ⟨writeRight_iff mode port addr args, readRight_iff bus mode port addr len⟩

def zeroBetween : Bus := ⟨fun _ => [1, 0, 2], fun _ _ => [1, 0, 2]⟩

/-- A byte that is read back as the end of the string, and a string longer than the buffer. -/
theorem read_stops_at_zero :
    (i2cRead zeroBetween 0 0 0 3 = .ok [1] ∧ ¬ ReadRight 3 [1, 0, 2] (.ok [1])) ∧
      ¬ WriteRight [.string (List.replicate 257 0)]
        (i2cWrite 0 0 0 [.string (List.replicate 257 0)]) := by
  refine ⟨⟨by decide +kernel, by simp [ReadRight]⟩, ?_⟩
  rw [writeRight_iff]
  decide +kernel

end Esp32Project.I2c
