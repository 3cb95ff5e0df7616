import Mathlib.Data.List.TakeWhile

/-! The C string at the head of a run of bytes. -/

set_option autoImplicit false

namespace Esp32Project.Lib

def cString (s : List UInt8) : List UInt8 := s.takeWhile (· != 0)

theorem not_mem_cString (s : List UInt8) : 0 ∉ cString s := fun h => by
  simpa using List.mem_takeWhile_imp h

theorem cString_eq {s : List UInt8} (h : 0 ∉ s) : cString s = s :=
  List.takeWhile_eq_self_iff.mpr fun _ hb => bne_iff_ne.mpr (ne_of_mem_of_not_mem hb h)

theorem cString_length_le (s : List UInt8) : (cString s).length ≤ s.length :=
  (List.takeWhile_sublist _).length_le

theorem cString_append {s : List UInt8} (h : 0 ∉ s) (rest : List UInt8) :
    cString (s ++ rest) = s ++ cString rest :=
  List.takeWhile_append_of_pos fun _ hb => bne_iff_ne.mpr (ne_of_mem_of_not_mem hb h)

theorem cString_append_zero {s : List UInt8} (h : 0 ∉ s) (rest : List UInt8) :
    cString (s ++ 0 :: rest) = s := by
  rw [cString, List.takeWhile_append_of_pos fun _ hb => bne_iff_ne.mpr (ne_of_mem_of_not_mem hb h)]
  simp

/-- The length of the string in a buffer, if it ends there. -/
def strlen (buf : List UInt8) : Option Nat := if 0 ∈ buf then some (cString buf).length else none

theorem take_strlen {buf : List UInt8} {n : Nat} (h : strlen buf = some n) :
    buf.take n = cString buf := by
  unfold strlen at h
  split at h
  · rw [← Option.some.inj h]
    exact (List.prefix_iff_eq_take.mp (List.takeWhile_prefix _)).symm
  · cases h

theorem strlen_append_zero {s : List UInt8} (h : 0 ∉ s) (rest : List UInt8) :
    strlen (s ++ 0 :: rest) = some s.length := by
  rw [strlen, if_pos (by simp), cString_append_zero h]

end Esp32Project.Lib
