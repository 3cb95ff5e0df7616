import Esp32Project.Lib.Buffer

/-! A queue in an array whose end is followed by its beginning. -/

set_option autoImplicit false

namespace Esp32Project.Lib

variable {α : Type} {n r i j k : Nat} {mem q c : List α}

def place (n r i : Nat) : Nat := if r + i < n then r + i else r + i - n

theorem place_lt (hr : r < n) (hi : i ≤ n) : place n r i < n := by
  unfold place
  split <;> omega

theorem place_place (hr : r < n) (h : k + i ≤ n) : place n (place n r k) i = place n r (k + i) := by
  unfold place
  split <;> split <;> split <;> omega

/-- The queue lies in the array, its first element at `r`. -/
def Window (n : Nat) (mem : List α) (r : Nat) (q : List α) : Prop :=
  ∀ i a, q[i]? = some a → mem[place n r i]? = some a

theorem Window.nil : Window n mem r [] := fun i a h => by simp at h

theorem Window.drop (h : Window n mem r q) (hr : r < n) (hq : q.length ≤ n) (k : Nat) :
    Window n mem (place n r k) (q.drop k) := fun i a hi => by
  rw [List.getElem?_drop] at hi
  obtain ⟨hlt, -⟩ := List.getElem?_eq_some_iff.mp hi
  rw [place_place hr (by omega)]
  exact h _ a hi

/-- A front of the queue that does not go past the end of the array. -/
theorem Window.take (h : Window n mem r q) (hk : k ≤ q.length)
    (hend : r + k ≤ n) : (mem.drop r).take k = q.take k := by
  refine List.ext_getElem? fun i => ?_
  rcases Nat.lt_or_ge i k with hi | hi
  · obtain ⟨a, ha⟩ : ∃ a, q[i]? = some a := ⟨q[i], List.getElem?_eq_getElem (by omega)⟩
    have hplace : place n r i = r + i := if_pos (by omega)
    have := h i a ha
    rw [List.getElem?_take_of_lt hi, List.getElem?_take_of_lt hi, List.getElem?_drop, ha, ← hplace,
      this]
  · rw [List.getElem?_eq_none (by rw [List.length_take]; omega),
      List.getElem?_eq_none (by rw [List.length_take]; omega)]

theorem Window.store (h : Window n mem r q) (hmem : mem.length = n)
    (hroom : q.length + c.length ≤ n) (hend : place n r q.length + c.length ≤ n) :
    Window n (mem.take (place n r q.length) ++ c ++ mem.drop (place n r q.length + c.length)) r
      (q ++ c) := by
  set w := place n r q.length with hw
  have hwlen : (mem.take w).length = w := List.length_take_of_le (by omega)
  intro i a hi
  rcases Nat.lt_or_ge i q.length with hlt | hge
  · rw [List.getElem?_append_left hlt] at hi
    have hold := h i a hi
    -- a place that the queue has taken is none of those that are stored to
    rcases Nat.lt_or_ge (place n r i) w with hbefore | hbehind
    · rw [List.append_assoc, List.getElem?_append_left (by omega), List.getElem?_take_of_lt hbefore,
        hold]
    · have hpast : w + c.length ≤ place n r i := by
        unfold place at hw hbehind ⊢
        split at hw <;> split at hbehind <;> split <;> omega
      rw [List.getElem?_append_right (by rw [List.length_append]; omega), List.getElem?_drop,
        List.length_append, hwlen, ← hold]
      congr 1
      omega
  · rw [List.getElem?_append_right hge] at hi
    obtain ⟨hlt, -⟩ := List.getElem?_eq_some_iff.mp hi
    have hplace : place n r i = w + (i - q.length) := by
      unfold place at hw ⊢
      split at hw <;> split <;> omega
    rw [hplace, List.append_assoc, List.getElem?_append_right (by omega), hwlen,
      Nat.add_sub_cancel_left, List.getElem?_append_left hlt, hi]

end Esp32Project.Lib
