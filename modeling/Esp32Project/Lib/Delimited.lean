import Mathlib.Data.List.Infix

/-! The prefix of a text up to its first delimiter, the delimiter included. -/

set_option autoImplicit false

namespace Esp32Project.Lib

variable {α : Type} {p : α → Bool}

/-- The shortest prefix of `text` whose last letter is a delimiter. -/
structure ShortestEnding (p : α → Bool) (text u : List α) : Prop where
  isPrefix : u <+: text
  ends : ∃ c, u.getLast? = some c ∧ p c
  least : ∀ v, v <+: text → (∃ c, v.getLast? = some c ∧ p c) → u.length ≤ v.length

def throughFirst (p : α → Bool) : List α → List α
  | [] => []
  | c :: text => if p c then [c] else c :: throughFirst p text

theorem throughFirst_isPrefix (p : α → Bool) (text : List α) : throughFirst p text <+: text := by
  induction text with
  | nil => exact List.nil_prefix
  | cons c text ih =>
    unfold throughFirst
    split
    · exact ⟨text, rfl⟩
    · exact List.cons_prefix_cons.mpr ⟨rfl, ih⟩

theorem throughFirst_eq_nil {text : List α} (h : throughFirst p text = []) : text = [] := by
  cases text with
  | nil => rfl
  | cons c text =>
    unfold throughFirst at h
    split at h <;> cases h

theorem throughFirst_none {text : List α} (h : ∀ c ∈ text, p c = false) :
    throughFirst p text = text := by
  induction text with
  | nil => rfl
  | cons c text ih =>
    rw [throughFirst, if_neg (by simp [h c]), ih fun d hd => h d (List.mem_cons_of_mem c hd)]

theorem throughFirst_take (text : List α) (n : Nat) :
    throughFirst p (text.take n) = (throughFirst p text).take n := by
  induction text generalizing n with
  | nil => simp [throughFirst]
  | cons c text ih =>
    cases n with
    | zero => rfl
    | succ n =>
      rw [List.take_succ_cons]
      unfold throughFirst
      split
      · simp
      · rw [ih, List.take_succ_cons]

theorem throughFirst_least {text v : List α} {c : α} (hv : v <+: text)
    (hc : c ∈ v) (hp : p c) : (throughFirst p text).length ≤ v.length := by
  induction text generalizing v with
  | nil => simp [throughFirst]
  | cons d text ih =>
    obtain ⟨e, v, rfl⟩ := List.exists_cons_of_ne_nil (List.ne_nil_of_mem hc)
    obtain ⟨rfl, htail⟩ := List.cons_prefix_cons.mp hv
    unfold throughFirst
    split
    · simp
    · rename_i hne
      rcases List.mem_cons.mp hc with rfl | hmem
      · exact absurd hp hne
      · exact Nat.succ_le_succ (ih htail hmem)

theorem throughFirst_ends {text : List α} (h : ∃ c ∈ text, p c) :
    ∃ c, (throughFirst p text).getLast? = some c ∧ p c := by
  induction text with
  | nil => simp at h
  | cons d text ih =>
    unfold throughFirst
    split
    · rename_i hd
      exact ⟨d, rfl, hd⟩
    · rename_i hd
      obtain ⟨c, hc, hp⟩ := h
      have hmem : c ∈ text := by
        rcases List.mem_cons.mp hc with rfl | hmem
        · exact absurd hp hd
        · exact hmem
      obtain ⟨e, he, hpe⟩ := ih ⟨c, hmem, hp⟩
      exact ⟨e, by rw [List.getLast?_cons, he]; rfl, hpe⟩

theorem throughFirst_shortest {text : List α} (h : ∃ c ∈ text, p c) :
    ShortestEnding p text (throughFirst p text) where
  isPrefix := throughFirst_isPrefix p text
  ends := throughFirst_ends h
  least := fun _ hv ⟨_, hlast, hp⟩ => throughFirst_least hv (List.mem_of_getLast? hlast) hp

end Esp32Project.Lib
