import Esp32Project.Lib.CString
import Esp32Project.Nvs.Store
import Mathlib.Algebra.Group.Int.Defs

/-!
The Lua functions of nvs.c. The NVS takes a Lua string for the C string at its
head. An error of Lua is its message.
-/

set_option autoImplicit false

namespace Esp32Project.Nvs
open Esp32Project.Lib

inductive Num where
  | fin (q : Rat)
  | inf (negative : Bool)
  | nan
  deriving DecidableEq, Repr

inductive Lua where
  | nil
  | boolean (b : Bool)
  | number (x : Num)
  | string (s : Str)
  | table
  | other
  deriving DecidableEq, Repr

structure NvsMod where
  st : Storage
  isOpen : Bool

/-- How reads of the other type fail, and what a double is as an int where C
leaves it open. -/
structure Env where
  mismatch : Bool
  wild : Num → BitVec 32

/-- The conversion of a double to an int, towards zero. -/
def toInt (e : Env) : Num → BitVec 32
  | .fin q =>
    let n := q.num.tdiv q.den
    if -2 ^ 31 ≤ n ∧ n < 2 ^ 31 then BitVec.ofInt 32 n else e.wild (.fin q)
  | x => e.wild x

abbrev Result := Except String Lua

def success : Lua := .number (.fin 0)

def failure : Lua := .number (.fin 1)

def outStrSize : Nat := 128

/-- `key_exist`: the second probe overrules the first one. -/
def keyExist (e : Env) (st : Storage) (key : Str) : Bool :=
  let res :=
    match (nvsGetI32 e.mismatch st key).1 with
    | .notFound => false
    | .ok => true
    | _ => false
  match (nvsGetStr e.mismatch st key outStrSize).1 with
  | .notFound => false
  | .ok => true
  | _ => res

def lnvsKeyExist (e : Env) (s : NvsMod) (key : Str) : Result :=
  if !s.isOpen then .error "call nvs.open first"
  else .ok (.number (.fin (if keyExist e s.st (cString key) then 1 else 0)))

def lnvsOpen (s : NvsMod) (opens : Bool) : Result × NvsMod :=
  if opens then (.ok success, { st := { s.st with valid := true }, isOpen := true })
  else (.ok failure, { s with isOpen := false })

def lnvsClose (s : NvsMod) : NvsMod := { st := { s.st with valid := false }, isOpen := false }

/-- The set and the commit of `lnvs_put`, the same for every type. -/
def putEntry (s : NvsMod) (key : Str) (entry : Entry) (answer : Write) (commitFails : Bool) :
    Result × NvsMod :=
  match nvsSet s.st key entry answer with
  | (.ok, st) =>
    match nvsCommit st commitFails with
    | .ok => (.ok success, { s with st := st })
    | _ => (.ok failure, { s with st := st })
  | (_, st) => (.ok failure, { s with st := st })

def lnvsPut (e : Env) (s : NvsMod) (key : Str) (value : Lua)
    (answer : Write) (commitFails : Bool) : Result × NvsMod :=
  if !s.isOpen then (.error "call nvs.open first", s)
  else if keyExist e s.st (cString key) then
    (.error "key exist! call nvs.remove to remove it first", s)
  else
    match value with
    | .string val => putEntry s (cString key) (.str (cString val)) answer commitFails
    | .number x => putEntry s (cString key) (.i32 (toInt e x)) answer commitFails
    | .boolean val =>
      putEntry s (cString key) (.i32 (if val then 1 else 0)) answer commitFails
    | .table => (.ok failure, s)
    | .nil | .other => (.ok failure, s)

/-- `lnvs_get`. Where nothing is pushed, the result is the top of the stack,
which is the key. -/
def lnvsGet (e : Env) (s : NvsMod) (key : Str) : Result :=
  if !s.isOpen then .error "call nvs.open first"
  else
    match nvsGetI32 e.mismatch s.st (cString key) with
    | (.invalidHandle, _) => .error "invalid nvs handle"
    | (.invalidName, _) => .error "invalid name"
    | (.ok, some n) => .ok (.number (.fin n.toInt))
    | _ =>
      match nvsGetStr e.mismatch s.st (cString key) outStrSize with
      | (.notFound, _) => .ok .nil
      | (.invalidHandle, _) => .error "invalid nvs handle"
      | (.invalidName, _) => .error "invalid name"
      | (.ok, some out) => .ok (.string out)
      | _ => .ok (.string key)

def lnvsRemove (e : Env) (s : NvsMod) (key : Str) (fails : Bool) : Result × NvsMod :=
  if !s.isOpen then (.error "call nvs.open first", s)
  else if !keyExist e s.st (cString key) then (.error "key doesn't exist!", s)
  else
    match nvsEraseKey s.st (cString key) fails with
    | (.invalidHandle, st) => (.error "invalid handle", { s with st := st })
    | (.readOnly, st) => (.error "nvs is readonly", { s with st := st })
    | (_, st) => (.ok success, { s with st := st })

/-- `lnvs_clearall` alone does not ask whether the module is open. -/
def lnvsClearall (s : NvsMod) (fails : Bool) : Result × NvsMod :=
  match nvsEraseAll s.st fails with
  | (.ok, st) => (.ok success, { s with st := st })
  | (_, st) => (.ok failure, { s with st := st })

end Esp32Project.Nvs
