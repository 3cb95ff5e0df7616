import Mathlib.Data.List.Infix

/-! The first place at which a key stands in a text. -/

set_option autoImplicit false

namespace Esp32Project.Lib

variable {α : Type} [DecidableEq α]

def search (key : List α) : List α → Option Nat
  | [] => if key = [] then some 0 else none
  | c :: text =>
    if key.isPrefixOf (c :: text) then some 0 else (search key text).map (· + 1)

theorem search_here {key : List α} (rest : List α) : search key (key ++ rest) = some 0 := by
  cases hkey : key ++ rest with
  | nil => simp [search, (List.append_eq_nil_iff.mp hkey).1]
  | cons c text =>
    have hprefix : key <+: c :: text := hkey ▸ List.prefix_append key rest
    rw [search, if_pos (List.isPrefixOf_iff_prefix.mpr hprefix)]

theorem search_next {key : List α} {c : α} {text : List α} (h : ¬ key <+: c :: text) :
    search key (c :: text) = (search key text).map (· + 1) := by
  rw [search, if_neg (fun hp => h (List.isPrefixOf_iff_prefix.mp hp))]

theorem search_skip {k : α} {key front : List α} (h : k ∉ front) (text : List α) :
    search (k :: key) (front ++ text) = (search (k :: key) text).map (· + front.length) := by
  induction front with
  | nil => simp
  | cons c front ih =>
    rw [List.mem_cons, not_or] at h
    have hno : ¬ k :: key <+: c :: (front ++ text) :=
      fun hp => h.1 (List.cons_prefix_cons.mp hp).1
    rw [List.cons_append, search_next hno, ih h.2, Option.map_map]
    congr 1

end Esp32Project.Lib
