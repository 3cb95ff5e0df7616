import Esp32Project.Lib.Buffer
import Mathlib.Data.List.InsertIdx

/-!
A list at the front of an array. The places behind it hold a filler. An element
is removed by moving those behind it down by one place.
-/

set_option autoImplicit false

namespace Esp32Project.Lib

variable {α : Type} {n i : Nat} {fill a : α} {l : List α}

def packed (n : Nat) (fill : α) (l : List α) : List α :=
  l ++ List.replicate (n - l.length) fill

/-- `buf[i] = buf[i + 1]`, and so on for as many places. -/
def shiftDown (buf : List α) (i : Nat) : Nat → Option (List α)
  | 0 => some buf
  | m + 1 => (buf[i + 1]?).bind fun a => (store buf i a).bind (shiftDown · (i + 1) m)

theorem length_packed (h : l.length ≤ n) : (packed n fill l).length = n := by
  rw [packed, List.length_append, List.length_replicate]
  omega

theorem take_packed : (packed n fill l).take l.length = l := List.take_left

theorem drop_packed : (packed n fill l).drop l.length = List.replicate (n - l.length) fill :=
  List.drop_left

theorem getElem?_packed (hi : i < l.length) : (packed n fill l)[i]? = l[i]? :=
  List.getElem?_append_left hi

theorem set_packed (hi : i < l.length) :
    (packed n fill l).set i a = packed n fill (l.set i a) := by
  simp only [packed, List.set_append_left _ _ hi, List.length_set]

theorem store_packed (h : l.length ≤ n) (hi : i < l.length) :
    store (packed n fill l) i a = some (packed n fill (l.set i a)) := by
  rw [store, length_packed h, if_pos (Nat.lt_of_lt_of_le hi h), set_packed hi]

theorem set_packed_end (h : l.length < n) :
    (packed n fill l).set l.length a = packed n fill (l ++ [a]) := by
  obtain ⟨m, hm⟩ : ∃ m, n - l.length = m + 1 := ⟨n - l.length - 1, by omega⟩
  have hm' : n - (l ++ [a]).length = m := by
    rw [List.length_append, List.length_singleton]
    omega
  rw [packed, packed, hm, hm', List.replicate_succ, List.set_append_right _ _ (Nat.le_refl _),
    Nat.sub_self, List.set_cons_zero, List.append_assoc, List.singleton_append]

theorem store_packed_end (h : l.length < n) :
    store (packed n fill l) l.length a = some (packed n fill (l ++ [a])) := by
  rw [store, length_packed (Nat.le_of_lt h), if_pos h, set_packed_end h]

theorem insertIdx_length_left (l r : List α) : (l ++ r).insertIdx l.length a = l ++ a :: r := by
  induction l with
  | nil => rfl
  | cons b l ih =>
    rw [List.cons_append, List.length_cons, List.insertIdx_succ_cons, ih, List.cons_append]

theorem eraseIdx_packed (h : l.length ≤ n) (hi : i < l.length) :
    ((packed n fill l).eraseIdx i).insertIdx (l.length - 1) fill =
      packed n fill (l.eraseIdx i) := by
  have hlen : (l.eraseIdx i).length = l.length - 1 := List.length_eraseIdx_of_lt hi
  have hfill : n - (l.length - 1) = n - l.length + 1 := by omega
  rw [packed, packed, List.eraseIdx_append_of_lt_length hi, ← hlen, insertIdx_length_left, hlen,
    hfill, List.replicate_succ]

theorem shiftDown_eq (front : List α) (a : α) (mid back : List α) :
    ∃ z, shiftDown (front ++ a :: (mid ++ back)) front.length mid.length =
      some (front ++ mid ++ z :: back) := by
  induction mid generalizing front a with
  | nil => exact ⟨a, by simp [shiftDown]⟩
  | cons b mid ih =>
    obtain ⟨z, hz⟩ := ih (front ++ [b]) b
    refine ⟨z, ?_⟩
    have hnext : (front ++ a :: (b :: mid ++ back))[front.length + 1]? = some b := by simp
    have hput : store (front ++ a :: (b :: mid ++ back)) front.length b =
        some (front ++ [b] ++ b :: (mid ++ back)) := by simp [store]
    rw [List.length_append, List.length_singleton] at hz
    rw [List.length_cons, shiftDown, hnext, Option.bind_some, hput, Option.bind_some, hz,
      List.append_assoc front [b] mid, List.singleton_append]

theorem shiftDown_packed (h : l.length ≤ n) (hi : i < l.length) :
    (shiftDown (packed n fill l) i (l.length - 1 - i)).bind (store · (l.length - 1) fill) =
      some (packed n fill (l.eraseIdx i)) := by
  have hfront : (l.take i).length = i := List.length_take_of_le (Nat.le_of_lt hi)
  have hmid : (l.drop (i + 1)).length = l.length - 1 - i := by
    rw [List.length_drop]
    omega
  have hparts : l.take i ++ l[i] :: l.drop (i + 1) = l := by
    rw [← List.drop_eq_getElem_cons hi, List.take_append_drop]
  have hsplit : packed n fill l =
      l.take i ++ l[i] :: (l.drop (i + 1) ++ List.replicate (n - l.length) fill) := by
    rw [← List.cons_append, ← List.append_assoc, hparts]
    rfl
  have hlast : (l.take i ++ l.drop (i + 1)).length = l.length - 1 := by
    rw [List.length_append, hfront, hmid]
    omega
  obtain ⟨z, hz⟩ := shiftDown_eq (l.take i) l[i] (l.drop (i + 1))
    (List.replicate (n - l.length) fill)
  rw [hfront, hmid, ← hsplit] at hz
  have hin : l.length - 1 < (l.take i ++ l.drop (i + 1) ++
      z :: List.replicate (n - l.length) fill).length := by
    rw [List.length_append, hlast, List.length_cons]
    omega
  have hfill : n - (l.length - 1) = n - l.length + 1 := by omega
  rw [hz, Option.bind_some, store, if_pos hin,
    List.set_append_right _ _ (Nat.le_of_eq hlast), hlast, Nat.sub_self, List.set_cons_zero,
    packed, List.eraseIdx_eq_take_drop_succ, hlast, hfill, List.replicate_succ]

end Esp32Project.Lib
