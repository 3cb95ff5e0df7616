import Mathlib.Data.List.TakeDrop

/-! Stores into a buffer of fixed size. A store outside it has no result. -/

set_option autoImplicit false

namespace Esp32Project.Lib

variable {α : Type}

def store (buf : List α) (i : Nat) (a : α) : Option (List α) :=
  if i < buf.length then some (buf.set i a) else none

/-- Elements one after another, from the place `i` on. -/
def storeAll (buf : List α) (i : Nat) : List α → Option (List α)
  | [] => some buf
  | a :: as => (store buf i a).bind (storeAll · (i + 1) as)

theorem storeAll_append (buf : List α) (i : Nat) (as bs : List α) :
    storeAll buf i (as ++ bs) = (storeAll buf i as).bind (storeAll · (i + as.length) bs) := by
  induction as generalizing buf i with
  | nil => rfl
  | cons a as ih =>
    simp only [List.cons_append, storeAll, Option.bind_assoc]
    congr 1
    funext buf'
    rw [ih, List.length_cons, Nat.add_right_comm, Nat.add_assoc]

theorem storeAll_of_fits (front : List α) {old : List α} (back : List α) {as : List α}
    (h : as.length = old.length) :
    storeAll (front ++ old ++ back) front.length as = some (front ++ as ++ back) := by
  induction as generalizing front old with
  | nil => rw [List.length_eq_zero_iff.mp h.symm]; rfl
  | cons a as ih =>
    obtain ⟨b, old, rfl⟩ := List.exists_cons_of_length_eq_add_one h.symm
    have hset : (front ++ b :: old ++ back).set front.length a = (front ++ [a]) ++ old ++ back := by
      simp
    have hnext := ih (front ++ [a]) (Nat.succ.inj h)
    rw [List.length_append, List.length_singleton] at hnext
    rw [storeAll, store, if_pos (by simp), Option.bind_some, hset, hnext]
    simp

theorem storeAll_eq {buf : List α} {i : Nat} {as : List α} (h : i + as.length ≤ buf.length) :
    storeAll buf i as = some (buf.take i ++ as ++ buf.drop (i + as.length)) := by
  have hfront : (buf.take i).length = i := by rw [List.length_take]; omega
  have hold : as.length = ((buf.drop i).take as.length).length := by
    rw [List.length_take, List.length_drop]
    omega
  have hbuf : buf.take i ++ (buf.drop i).take as.length ++ buf.drop (i + as.length) = buf := by
    rw [List.append_assoc, ← List.drop_drop, List.take_append_drop, List.take_append_drop]
  have hall := storeAll_of_fits (buf.take i) (buf.drop (i + as.length)) hold
  rwa [hbuf, hfront] at hall

theorem storeAll_eq_none {buf : List α} {i : Nat} {as : List α} (hne : as ≠ [])
    (h : buf.length < i + as.length) : storeAll buf i as = none := by
  induction as generalizing buf i with
  | nil => exact absurd rfl hne
  | cons a as ih =>
    unfold storeAll store
    split
    · rename_i hlt
      rw [List.length_cons] at h
      have hrest : as ≠ [] := by rintro rfl; simp at h; omega
      exact ih hrest (by rw [List.length_set]; omega)
    · rfl

end Esp32Project.Lib
