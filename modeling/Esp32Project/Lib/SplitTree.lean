import Esp32Project.Lib.Range

/-!
Blocks that are split in two again and again. A block is a head and two halves
behind it, side by side, each a block of the next lower order.
-/

set_option autoImplicit false

namespace Esp32Project.Lib

structure Splitting where
  head : Nat
  /-- What a block of this order takes up. -/
  bytes : Nat → Nat
  head_pos : 0 < head
  bytes_pos : ∀ k, 0 < bytes k
  bytes_succ : ∀ k, bytes (k + 1) = 2 * bytes k + head

/-- The blocks of a whole of order `top` at `mem`, by their order and address. -/
inductive Splitting.Block (S : Splitting) (top mem : Nat) : Nat → Nat → Prop where
  | whole : S.Block top mem top mem
  | lower {k a : Nat} : S.Block top mem (k + 1) a → S.Block top mem k (a + S.head)
  | upper {k a : Nat} : S.Block top mem (k + 1) a → S.Block top mem k (a + S.head + S.bytes k)

namespace Splitting

variable {S : Splitting} {top mem k j a b : Nat}

theorem Block.order_le (h : S.Block top mem k a) : k ≤ top := by
  induction h with
  | whole => exact Nat.le_refl _
  | lower _ ih => exact Nat.le_of_succ_le ih
  | upper _ ih => exact Nat.le_of_succ_le ih

theorem Block.trans (h : S.Block top mem j a) (h' : S.Block j a k b) : S.Block top mem k b := by
  induction h' with
  | whole => exact h
  | lower _ ih => exact .lower ih
  | upper _ ih => exact .upper ih

theorem Block.top_cases (h : S.Block (top + 1) mem k a) :
    (k = top + 1 ∧ a = mem) ∨ S.Block top (mem + S.head) k a ∨
      S.Block top (mem + S.head + S.bytes top) k a := by
  generalize hn : top + 1 = n at h
  induction h with
  | whole => exact .inl ⟨rfl, rfl⟩
  | @lower j a _ ih =>
    rcases ih with ⟨hk, rfl⟩ | hlow | hup
    · obtain rfl : j = top := by omega
      exact .inr (.inl .whole)
    · exact .inr (.inl (.lower hlow))
    · exact .inr (.inr (.lower hup))
  | @upper j a _ ih =>
    rcases ih with ⟨hk, rfl⟩ | hlow | hup
    · obtain rfl : j = top := by omega
      exact .inr (.inr .whole)
    · exact .inr (.inl (.upper hlow))
    · exact .inr (.inr (.upper hup))

theorem Block.inside (h : S.Block top mem k a) : mem ≤ a ∧ a + S.bytes k ≤ mem + S.bytes top := by
  induction h with
  | whole => exact ⟨Nat.le_refl _, Nat.le_refl _⟩
  | @lower k a _ ih =>
    have := S.bytes_succ k
    omega
  | @upper k a _ ih =>
    have := S.bytes_succ k
    omega

theorem Block.behind (h : S.Block top mem k a) : (k = top ∧ a = mem) ∨ mem + S.head ≤ a := by
  induction h with
  | whole => exact .inl ⟨rfl, rfl⟩
  | lower _ ih => exact .inr (by omega)
  | upper _ ih => exact .inr (by omega)

theorem Block.whole_eq (h : S.Block top mem top a) : a = mem := by
  have := h.inside
  omega

theorem Block.order_unique (h : S.Block top mem k a) (h' : S.Block top mem j a) : j = k := by
  induction top generalizing mem with
  | zero =>
    have := h.order_le
    have := h'.order_le
    omega
  | succ top ih =>
    have hk := S.bytes_pos k
    have hj := S.bytes_pos j
    have hpos := S.head_pos
    rcases h.top_cases with ⟨rfl, rfl⟩ | hl | hu <;> rcases h'.top_cases with ⟨rfl, hm⟩ | hl' | hu'
    · rfl
    · have := hl'.inside
      omega
    · have := hu'.inside
      omega
    · have := hl.inside
      omega
    · exact ih hl hl'
    · have := hl.inside
      have := hu'.inside
      omega
    · have := hu.inside
      omega
    · have := hu.inside
      have := hl'.inside
      omega
    · exact ih hu hu'

theorem Block.apart (h : S.Block top mem k a) (h' : S.Block top mem k b) (hne : a ≠ b) :
    Apart a (S.bytes k) b (S.bytes k) := by
  unfold Apart
  induction top generalizing mem with
  | zero =>
    obtain rfl := Nat.le_zero.mp h.order_le
    exact absurd (h.whole_eq.trans h'.whole_eq.symm) hne
  | succ top ih =>
    rcases h.top_cases with ⟨rfl, rfl⟩ | hl | hu
    · exact absurd h'.whole_eq.symm hne
    · rcases h'.top_cases with ⟨rfl, rfl⟩ | hl' | hu'
      · exact absurd h.whole_eq hne
      · exact ih hl hl'
      · have := hl.inside
        have := hu'.inside
        omega
    · rcases h'.top_cases with ⟨rfl, rfl⟩ | hl' | hu'
      · exact absurd h.whole_eq hne
      · have := hu.inside
        have := hl'.inside
        omega
      · exact ih hu hu'

/-- `lo` and `up` are the halves of the block of order `k + 1` at `p`. -/
structure Halves (S : Splitting) (top mem k p lo up : Nat) : Prop where
  block : S.Block top mem (k + 1) p
  lower : lo = p + S.head
  upper : up = p + S.head + S.bytes k

/-- Two blocks of one order side by side are the halves of one block: where they are in
different halves of a larger block, a head lies between them. -/
theorem Block.halves (h : S.Block top mem k a) (h' : S.Block top mem k b)
    (hb : b = a + S.bytes k) : ∃ p, S.Halves top mem k p a b := by
  have hpos := S.bytes_pos k
  induction top generalizing mem with
  | zero =>
    obtain rfl := Nat.le_zero.mp h.order_le
    have := h.whole_eq
    have := h'.whole_eq
    omega
  | succ top ih =>
    have hlow : S.Block (top + 1) mem top (mem + S.head) := .lower .whole
    have hup : S.Block (top + 1) mem top (mem + S.head + S.bytes top) := .upper .whole
    rcases h.top_cases with ⟨rfl, rfl⟩ | hl | hu
    · have := h'.whole_eq
      omega
    · rcases h'.top_cases with ⟨rfl, rfl⟩ | hl' | hu'
      · have := h.whole_eq
        omega
      · obtain ⟨p, hp⟩ := ih hl hl'
        exact ⟨p, hlow.trans hp.block, hp.lower, hp.upper⟩
      · have hin := hl.inside
        have hin' := hu'.inside
        have hhead := S.head_pos
        rcases hu'.behind with ⟨rfl, hbu⟩ | hbehind
        · exact ⟨mem, .whole, hl.whole_eq, hbu⟩
        · omega
    · rcases h'.top_cases with ⟨rfl, rfl⟩ | hl' | hu'
      · have := h.whole_eq
        omega
      · have := hu.inside
        have := hl'.inside
        omega
      · obtain ⟨p, hp⟩ := ih hu hu'
        exact ⟨p, hup.trans hp.block, hp.lower, hp.upper⟩

theorem Halves.side_by_side {p lo up : Nat} (h : S.Halves top mem k p lo up) :
    up = lo + S.bytes k := by
  rw [h.lower]
  exact h.upper

theorem Halves.parent_unique {p q lo up lo' up' : Nat} (h : S.Halves top mem k p lo up)
    (h' : S.Halves top mem k q lo' up') (hc : lo = lo' ∨ lo = up' ∨ up = lo' ∨ up = up') :
    q = p := by
  refine Classical.byContradiction fun hne => ?_
  have hapart := h.block.apart h'.block (Ne.symm hne)
  have := S.bytes_succ k
  have := S.bytes_pos k
  obtain ⟨-, rfl, rfl⟩ := h
  obtain ⟨-, rfl, rfl⟩ := h'
  unfold Apart at hapart
  omega

end Splitting

end Esp32Project.Lib
