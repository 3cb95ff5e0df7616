import Mathlib.Logic.Function.Basic

/-!
The ESP-IDF key-value store as nvs.c relies on it: one typed entry for a key,
an error for an access under the other type, lengths that count the terminator.
-/

set_option autoImplicit false

namespace Esp32Project.Nvs

abbrev Str := List UInt8

inductive Err where
  | ok
  | notFound
  | typeMismatch
  | invalidHandle
  | invalidName
  | invalidLength
  | keyTooLong
  | notEnoughSpace
  | removeFailed
  | readOnly
  | fail
  deriving DecidableEq, Repr

inductive Entry where
  | i32 (n : BitVec 32)
  | str (s : Str)
  deriving DecidableEq, Repr

def Entry.sameType : Entry → Entry → Bool
  | .i32 _, .i32 _ | .str _, .str _ => true
  | _, _ => false

/-- The namespace "storage", and whether the module's handle names it. -/
structure Storage where
  valid : Bool
  entries : Str → Option Entry

/-- What a write comes to: it may find no room, or report REMOVE_FAILED with the
new value in place. -/
inductive Write where
  | done
  | noSpace
  | late
  deriving DecidableEq, Repr

/-- What an entry of the other type makes of a read: versions of ESP-IDF answer
differently. -/
def wrongType (mismatch : Bool) : Err := if mismatch then .typeMismatch else .notFound

def nvsGetI32 (mismatch : Bool) (st : Storage) (key : Str) : Err × Option (BitVec 32) :=
  if st.valid then
    match st.entries key with
    | some (.i32 n) => (.ok, some n)
    | some (.str _) => (wrongType mismatch, none)
    | none => (.notFound, none)
  else (.invalidHandle, none)

/-- The buffer has `room` bytes; the result includes the terminator. -/
def nvsGetStr (mismatch : Bool) (st : Storage) (key : Str) (room : Nat) : Err × Option Str :=
  if st.valid then
    match st.entries key with
    | some (.str s) =>
      if s.length + 1 ≤ room then (.ok, some (s ++ [0])) else (.invalidLength, none)
    | some (.i32 _) => (wrongType mismatch, none)
    | none => (.notFound, none)
  else (.invalidHandle, none)

def maxKeyLength : Nat := 15

def Storage.write (st : Storage) (key : Str) (entry : Option Entry) : Storage :=
  { st with entries := Function.update st.entries key entry }

/-- `nvs_set_i32` and `nvs_set_str`. -/
def nvsSet (st : Storage) (key : Str) (entry : Entry) (answer : Write) : Err × Storage :=
  if !st.valid then (.invalidHandle, st)
  else if maxKeyLength < key.length then (.keyTooLong, st)
  else if ((st.entries key).map entry.sameType).getD true then
    match answer with
    | .done => (.ok, st.write key (some entry))
    | .noSpace => (.notEnoughSpace, st)
    | .late => (.removeFailed, st.write key (some entry))
  else (.typeMismatch, st)

def nvsCommit (st : Storage) (fails : Bool) : Err :=
  if !st.valid then .invalidHandle else if fails then .fail else .ok

def nvsEraseKey (st : Storage) (key : Str) (fails : Bool) : Err × Storage :=
  if !st.valid then (.invalidHandle, st)
  else match st.entries key with
    | none => (.notFound, st)
    | some _ => if fails then (.fail, st) else (.ok, st.write key none)

def nvsEraseAll (st : Storage) (fails : Bool) : Err × Storage :=
  if !st.valid then (.invalidHandle, st)
  else if fails then (.fail, st)
  else (.ok, { st with entries := fun _ => none })

end Esp32Project.Nvs
